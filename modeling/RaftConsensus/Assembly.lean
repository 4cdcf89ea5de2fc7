import RaftConsensus.Library.Processor
import RaftConsensus.Log

/-!
# The serializers in assembly (`command_serialize.asm`, `log_serialize.asm`)

Both files hold one routine for a 16-bit processor and an imaginary program that calls it.  The
routine takes its parameters on the stack, saves the registers it uses, and writes a buffer byte by
byte through `DI`.  `Writing` is its state in the middle of this work: each block of a routine
lengthens what is written, and `leave` is the state behind the `ret`.

The comments promise lengths in "Big Endian style".  But a length is swapped with `xchg ah, al`
*and* written from `AH` on, so that its low byte comes first.

* `CommandCall.serializeCommand_returns` and `LogCall.serializeLog_returns`: what the routines do.
* `CommandCall.agrees_iff`: `serialize_command` agrees with `Serialize` where both bytes of each
  length are the same; so it does for a no-op, whose lengths are zero.
* `LogCall.agrees`: `serialize_log` agrees with `SerializeLogEntry`.
-/

namespace RaftConsensus.Assembly

open Processor

/-! ## The routines -/

/-- The first lines of both routines. -/
def saveRegisters : List Op :=
  [.push .bp, .mov .bp .sp, .push .cx, .push .si, .push .di, .push .bx]

/-- The last lines of both routines. -/
def restoreRegisters : List Op :=
  [.pop .bx, .pop .di, .pop .si, .pop .cx, .mov .sp .bp, .pop .bp]

/-- A length, "Big Endian style": the parameter at `[bp + d]`, swapped, and written from `AH` on. -/
def writeLength (d : ℕ) : List Op :=
  [.load .ax .bp (BitVec.ofNat 16 d), .xchgAhAl, .storeAh .di, .inc .di, .storeAl .di, .inc .di]

/-- The labels of `serialize_command`. -/
inductive CommandLabel
  | copyKeyLoop
  | copyVal
  | copyValLoop
  | doneSerialize
  deriving DecidableEq, Repr

/-- `serialize_command`. -/
def serializeCommandAsm : List (Line CommandLabel) := List.flatten [
  straight saveRegisters,
  straight [.load .di .bp 4, .mov .bx .di],
  -- the operation and the two lengths
  straight [.load .ax .bp 6, .storeAl .di, .inc .di],
  straight (writeLength 8),
  straight (writeLength 10),
  -- the key
  straight [.load .cx .bp 8, .load .si .bp 12],
  [.jcxz .copyVal, .label .copyKeyLoop],
  straight (copyBody (.inc .si)),
  [.loop .copyKeyLoop, .label .copyVal],
  -- the value
  straight [.load .cx .bp 10, .load .si .bp 14],
  [.jcxz .doneSerialize, .label .copyValLoop],
  straight (copyBody (.inc .si)),
  [.loop .copyValLoop, .label .doneSerialize],
  -- the number of bytes written
  straight [.mov .ax .di, .sub .ax .bx],
  straight restoreRegisters,
  [.ret 12]]

/-- The labels of `serialize_log`. -/
inductive LogLabel
  | writeTermLoop
  | writeIndexLoop
  | doneSerializeLog
  deriving DecidableEq, Repr

/-- `serialize_log`: the term and the index, each from its highest byte down. -/
def serializeLogAsm : List (Line LogLabel) := List.flatten [
  straight saveRegisters,
  straight [.load .di .bp 4],
  straight [.movi .cx 8, .load .si .bp 6, .addi .si 7],
  [.label .writeTermLoop],
  straight (copyBody (.dec .si)),
  [.loop .writeTermLoop],
  straight [.movi .cx 8, .load .si .bp 8, .addi .si 7],
  [.label .writeIndexLoop],
  straight (copyBody (.dec .si)),
  [.loop .writeIndexLoop, .label .doneSerializeLog],
  straight restoreRegisters,
  [.ret 6]]

/-- What `[bp + d]` is in a routine that was called in the state `s`. -/
def argument (s : State) (d : ℕ) : BitVec 16 := s.mem.word (s.regs .sp - 2 + BitVec.ofNat 16 d)

/-- The registers that a routine has saved, lowest byte first. -/
def saved (s : State) : Bytes :=
  [low (s.regs .bx), high (s.regs .bx), low (s.regs .di), high (s.regs .di),
    low (s.regs .si), high (s.regs .si), low (s.regs .cx), high (s.regs .cx),
    low (s.regs .bp), high (s.regs .bp)]

/-- The memory of a routine that was called in the state `s`, before it has written anything. -/
def frame (s : State) : Segment := s.mem.write (s.regs .sp - 10) (saved s)

/-- The state behind `ret n`: the registers are back, and `bs` is at `out`. -/
def leave (s : State) (out : BitVec 16) (bs : Bytes) (ax n : BitVec 16) : State where
  regs
    | .ax => ax
    | .sp => s.regs .sp + 2 + n
    | r => s.regs r
  mem := (frame s).write out bs

/-- The buffer behind the `ret`. -/
theorem bytes_leave (s : State) (out : BitVec 16) {bs : Bytes} {k : ℕ} (hk : bs.length = k)
    (hlt : k < 2 ^ 16) (ax n : BitVec 16) : (leave s out bs ax n).mem.bytes out k = bs := by
  subst hk
  exact Segment.bytes_write _ _ hlt.le

/-! ## A routine at work -/

/-- The offset of the parameter `[bp + d]`, seen from the saved registers. -/
theorem argument_offset (e : State) (d : ℕ) :
    e.regs .sp - 2 + BitVec.ofNat 16 d = e.regs .sp - 10 + BitVec.ofNat 16 (8 + d) := by
  have hten : e.regs .sp - 2 = e.regs .sp - 10 + BitVec.ofNat 16 8 := by bv_omega
  rw [hten, BitVec.ofNat_add, BitVec.add_assoc]

/-- Saving the registers does not touch the parameters, nor the return address. -/
theorem word_frame (e : State) {d : ℕ} (hd : 2 ≤ d) (hd' : d < 2 ^ 15) :
    (frame e).word (e.regs .sp - 2 + BitVec.ofNat 16 d) = argument e d := by
  rw [argument, frame, Segment.word_write_of_disjoint]
  rw [argument_offset]
  exact disjoint_region_add _ (by show 10 ≤ 8 + d; omega) (by omega)

/-- The state behind `saveRegisters`. -/
theorem execAll_saveRegisters (e : State) :
    (execAll saveRegisters e).mem = frame e ∧ (execAll saveRegisters e).regs = fun r =>
      if r = .bp then e.regs .sp - 2 else if r = .sp then e.regs .sp - 10 else e.regs r := by
  have hten : e.regs .sp - 2#16 - 2#16 - 2#16 - 2#16 - 2#16 = e.regs .sp - 10#16 := by bv_omega
  constructor
  · have hfive : (execAll saveRegisters e).mem =
        e.mem.write (e.regs .sp - 2#16 - 2#16 - 2#16 - 2#16 - 2#16) (saved e) := by
      simp [saveRegisters, Op.exec, Segment.write_push, saved]
    rw [hfive, hten]
    rfl
  · funext r
    cases r <;> simp [saveRegisters, Op.exec, hten]

/-- The state behind `restoreRegisters`. -/
theorem execAll_restoreRegisters (s : State) :
    (execAll restoreRegisters s).mem = s.mem ∧ (execAll restoreRegisters s).regs = fun
      | .ax => s.regs .ax
      | .bx => s.mem.word (s.regs .sp + BitVec.ofNat 16 0)
      | .di => s.mem.word (s.regs .sp + BitVec.ofNat 16 2)
      | .si => s.mem.word (s.regs .sp + BitVec.ofNat 16 4)
      | .cx => s.mem.word (s.regs .sp + BitVec.ofNat 16 6)
      | .bp => s.mem.word (s.regs .bp)
      | .sp => s.regs .bp + 2 := by
  constructor
  · simp [restoreRegisters, Op.exec]
  · funext r
    cases r <;> simp [restoreRegisters, Op.exec, BitVec.add_assoc]

/-- In the middle of a routine that was called in the state `e`: it has written `bs` at `out` and
goes on behind it.  `BX` holds `w` all the time. -/
structure Writing (e : State) (out w : BitVec 16) (bs : Bytes) (s : State) : Prop where
  mem : s.mem = (frame e).write out bs
  di : s.regs .di = out + BitVec.ofNat 16 bs.length
  bx : s.regs .bx = w
  bp : s.regs .bp = e.regs .sp - 2
  sp : s.regs .sp = e.regs .sp - 10

namespace Writing

variable {e s s' : State} {out w a : BitVec 16} {bs : Bytes} {d n k : ℕ}

/-- Other registers are free. -/
theorem set (h : Writing e out w bs s) (a : BitVec 16)
    (hr : r = .ax ∨ r = .cx ∨ r = .si) : Writing e out w bs (s.set r a) := by
  obtain ⟨hmem, hdi, hbx, hbp, hsp⟩ := h
  rcases hr with rfl | rfl | rfl <;> constructor <;> simpa

/-- What is written at `DI` stands behind what was written before. -/
theorem write (h : Writing e out w bs s) {cs : Bytes} (hn : bs.length + cs.length < 2 ^ 16) :
    s.mem.write (s.regs .di) cs = (frame e).write out (bs ++ cs) := by
  rw [h.mem, h.di, Segment.write_append _ _ hn]

/-- A byte written at `DI`, and `inc di`. -/
theorem emit (h : Writing e out w bs s) (b : UInt8) (hn : bs.length + 1 < 2 ^ 16) :
    Writing e out w (bs ++ [b]) ((Op.inc .di).exec (s.put (s.regs .di) [b])) where
  mem := h.write hn
  di := by
    have hsucc : BitVec.ofNat 16 (bs.length + 1) = BitVec.ofNat 16 bs.length + 1 :=
      BitVec.ofNat_add bs.length 1
    rw [Op.exec, State.regs_set, if_pos rfl, State.regs_put, h.di, List.length_append,
      List.length_singleton, hsucc, add_assoc]
  bx := h.bx
  bp := h.bp
  sp := h.sp

/-- `mov [di], al`, and `inc di`. -/
theorem storeAl (h : Writing e out w bs s) {b : UInt8} (hb : low (s.regs .ax) = b)
    (hn : bs.length + 1 < 2 ^ 16) :
    Writing e out w (bs ++ [b]) (execAll [.storeAl .di, .inc .di] s) := by
  rw [← hb]
  exact h.emit _ hn

/-- `mov [di], ah`, and `inc di`. -/
theorem storeAh (h : Writing e out w bs s) {b : UInt8} (hb : high (s.regs .ax) = b)
    (hn : bs.length + 1 < 2 ^ 16) :
    Writing e out w (bs ++ [b]) (execAll [.storeAh .di, .inc .di] s) := by
  rw [← hb]
  exact h.emit _ hn

/-- `mov bx, di`, before anything is written. -/
theorem start (h : Writing e out w [] s) : Writing e out out [] ((Op.mov .bx .di).exec s) where
  mem := h.mem
  di := h.di
  bx := h.di.trans (BitVec.add_zero out)
  bp := h.bp
  sp := h.sp

/-- Parameters can be read as long as the buffer does not reach the stack. -/
theorem word_argument (h : Writing e out w bs s) (d : ℕ) (hd : 2 ≤ d ∧ 10 + d ≤ k ∧ k ≤ 2 ^ 15)
    (hst : Disjoint (region out bs.length) (region (e.regs .sp - 10) k)) :
    s.mem.word (s.regs .bp + BitVec.ofNat 16 d) = argument e d := by
  have hin : region (e.regs .sp - 2 + BitVec.ofNat 16 d) 2 ⊆ region (e.regs .sp - 10) k := by
    rw [argument_offset]
    exact region_add_subset (by omega)
  rw [h.mem, h.bp, Segment.word_write_of_disjoint (hst.mono_right hin),
    word_frame e hd.1 (by omega)]

/-- The highest byte of a number of eight, loaded for a copying loop. -/
theorem highest (h : Writing e out w bs s) (d : ℕ) (hd : 2 ≤ d ∧ 10 + d ≤ k ∧ k ≤ 2 ^ 15)
    (hst : Disjoint (region out bs.length) (region (e.regs .sp - 10) k)) :
    Writing e out w bs
        (execAll [.movi .cx 8, .load .si .bp (BitVec.ofNat 16 d), .addi .si 7] s) ∧
      (execAll [.movi .cx 8, .load .si .bp (BitVec.ofNat 16 d), .addi .si 7] s).regs .cx = 8 ∧
      (execAll [.movi .cx 8, .load .si .bp (BitVec.ofNat 16 d), .addi .si 7] s).regs .si =
        argument e d + BitVec.ofNat 16 7 := by
  have hsi := h.word_argument d hd hst
  have hset : execAll [.movi .cx 8, .load .si .bp (BitVec.ofNat 16 d), .addi .si 7] s =
      ((s.set .cx 8).set .si (argument e d)).set .si (argument e d + 7) := by
    simp [Op.exec, hsi]
  rw [hset]
  exact ⟨((h.set _ (.inr (.inl rfl))).set _ (.inr (.inr rfl))).set _ (.inr (.inr rfl)),
    by simp, by simp⟩

/-- One byte of a parameter. -/
theorem byte (h : Writing e out w bs s) (d : ℕ) (hd : 2 ≤ d ∧ 10 + d ≤ k ∧ k ≤ 2 ^ 15)
    (hst : Disjoint (region out bs.length) (region (e.regs .sp - 10) k))
    (hn : bs.length + 1 < 2 ^ 16) :
    Writing e out w (bs ++ [low (argument e d)])
      (execAll [.load .ax .bp (BitVec.ofNat 16 d), .storeAl .di, .inc .di] s) := by
  have hload : Writing e out w bs ((Op.load .ax .bp (BitVec.ofNat 16 d)).exec s) :=
    h.set _ (.inl rfl)
  exact hload.storeAl (congrArg low (h.word_argument d hd hst)) hn

/-- The two bytes that `writeLength` writes: the low one is first, since the halves have been
swapped. -/
theorem length (h : Writing e out w bs s) (d : ℕ) (hd : 2 ≤ d ∧ 10 + d ≤ k ∧ k ≤ 2 ^ 15)
    (hst : Disjoint (region out bs.length) (region (e.regs .sp - 10) k))
    (hn : bs.length + 2 < 2 ^ 16) :
    Writing e out w (bs ++ [low (argument e d), high (argument e d)])
      (execAll (writeLength d) s) := by
  have harg : s.mem.word (s.regs .bp + BitVec.ofNat 16 d) = argument e d :=
    h.word_argument d hd hst
  have hswap : Writing e out w bs (execAll [.load .ax .bp (BitVec.ofNat 16 d), .xchgAhAl] s) :=
    (h.set _ (.inl rfl)).set _ (.inl rfl)
  have hax : (execAll [.load .ax .bp (BitVec.ofNat 16 d), .xchgAhAl] s).regs .ax =
      join (low (argument e d)) (high (argument e d)) := by
    simp [Op.exec, harg]
  have hfirst : Writing e out w (bs ++ [low (argument e d)])
      (execAll [.load .ax .bp (BitVec.ofNat 16 d), .xchgAhAl, .storeAh .di, .inc .di] s) :=
    hswap.storeAh (by rw [hax, high_join]) (by omega)
  have hlen : (bs ++ [low (argument e d)]).length + 1 < 2 ^ 16 := by
    rw [List.length_append, List.length_singleton]
    omega
  have hsecond : Writing e out w (bs ++ [low (argument e d)] ++ [high (argument e d)])
      (execAll (writeLength d) s) :=
    hfirst.storeAl ((congrArg low hax).trans (low_join _ _)) hlen
  rwa [List.append_assoc] at hsecond

/-- The length of a string and its offset, loaded for a copying loop. -/
theorem source (h : Writing e out w bs s) (d d' : ℕ) (hd : 2 ≤ d ∧ 10 + d ≤ k ∧ k ≤ 2 ^ 15)
    (hd' : 2 ≤ d' ∧ 10 + d' ≤ k ∧ k ≤ 2 ^ 15)
    (hst : Disjoint (region out bs.length) (region (e.regs .sp - 10) k)) :
    Writing e out w bs
        (execAll [.load .cx .bp (BitVec.ofNat 16 d), .load .si .bp (BitVec.ofNat 16 d')] s) ∧
      (execAll [.load .cx .bp (BitVec.ofNat 16 d), .load .si .bp (BitVec.ofNat 16 d')] s).regs .cx =
        argument e d ∧
      (execAll [.load .cx .bp (BitVec.ofNat 16 d), .load .si .bp (BitVec.ofNat 16 d')] s).regs .si =
        argument e d' := by
  have hcx := h.word_argument d hd hst
  have hsi := h.word_argument d' hd' hst
  have hset : execAll [.load .cx .bp (BitVec.ofNat 16 d), .load .si .bp (BitVec.ofNat 16 d')] s =
      (s.set .cx (argument e d)).set .si (argument e d') := by
    simp [Op.exec, hcx, hsi]
  rw [hset]
  exact ⟨(h.set _ (.inr (.inl rfl))).set _ (.inr (.inr rfl)), by simp, by simp⟩

/-- What is in memory away from the stack and from the buffer is as it was. -/
theorem scan (h : Writing e out w bs s) (δ : BitVec 16)
    (hsaved : ∀ i < n, a + BitVec.ofNat 16 i * δ ∉ region (e.regs .sp - 10) 10)
    (hout : ∀ i < n, a + BitVec.ofNat 16 i * δ ∉ region out bs.length) :
    s.mem.scan δ a n = e.mem.scan δ a n := by
  apply Segment.scan_congr
  intro i hi
  rw [h.mem, Segment.write_of_notMem (hout i hi), frame, Segment.write_of_notMem (hsaved i hi)]

/-- A string that is copied stands behind what was written before, if it lies away from the saved
registers and from the buffer. -/
theorem copy {δ : BitVec 16} {t : Set (BitVec 16)} (h : Writing e out w bs s)
    (hin : ∀ i < n, s.regs .si + BitVec.ofNat 16 i * δ ∈ t) (hbuffer : Disjoint (region out k) t)
    (hsaved : Disjoint (region (e.regs .sp - 10) 10) t) (hn : bs.length + n ≤ k) (hk : k < 2 ^ 16) :
    (∀ i < n, s.regs .si + BitVec.ofNat 16 i * δ ∉ region (s.regs .di) n) ∧
      ∀ s', Copied δ n s s' → Writing e out w (bs ++ e.mem.scan δ (s.regs .si) n) s' := by
  have hout : ∀ i < n, s.regs .si + BitVec.ofNat 16 i * δ ∉ region out k :=
    fun i hi => Set.disjoint_right.mp hbuffer (hin i hi)
  have hread : s.mem.scan δ (s.regs .si) n = e.mem.scan δ (s.regs .si) n :=
    h.scan δ (fun i hi => Set.disjoint_right.mp hsaved (hin i hi))
      fun i hi hmem => hout i hi (region_mono (by omega) hmem)
  refine ⟨fun i hi hmem => hout i hi ?_, fun s' h' => ?_⟩
  · rw [h.di] at hmem
    exact region_add_subset hn hmem
  · rw [← hread]
    constructor
    · rw [h'.mem, h.write (by rw [Segment.length_scan]; omega)]
    · rw [h'.di, h.di, List.length_append, Segment.length_scan, BitVec.ofNat_add, add_assoc]
    · rw [h'.regs .bx (by decide) (by decide) (by decide) (by decide), h.bx]
    · rw [h'.regs .bp (by decide) (by decide) (by decide) (by decide), h.bp]
    · rw [h'.regs .sp (by decide) (by decide) (by decide) (by decide), h.sp]

section Loops

variable {L : Type*} [DecidableEq L] {rest : List (Line L)} {str : Bytes}

/-- **The loop for a string** writes all of it, also when it is empty. -/
theorem reaches_string (h : Writing e out w bs s) (prog : List (Line L)) (l skip : L)
    (hl : target prog l =
      .label l :: (straight (copyBody (.inc .si)) ++ .loop l :: target prog skip))
    (hcx : (s.regs .cx).toNat = str.length) (hsi : s.regs .si = a)
    (hstr : e.mem.bytes a str.length = str)
    (hbuffer : Disjoint (region out k) (region a str.length))
    (hsaved : Disjoint (region (e.regs .sp - 10) 10) (region a str.length))
    (hn : bs.length + str.length ≤ k) (hk : k < 2 ^ 16) :
    ∃ s', Reaches prog (.running (.jcxz skip :: target prog l) s)
        (.running (target prog skip) s') ∧
      Writing e out w (bs ++ str) s' := by
  subst hsi
  have hin : ∀ i < str.length,
      s.regs .si + BitVec.ofNat 16 i * 1 ∈ region (s.regs .si) str.length := by
    intro i hi
    rw [mul_one]
    exact add_mem_region _ hi
  obtain ⟨hsrc, hcopy⟩ := h.copy hin hbuffer hsaved hn hk
  obtain ⟨s', hreach, hcopied⟩ := reaches_jcxz_copy moves_inc hl rfl hcx hsrc
  have hdone := hcopy s' hcopied
  rw [← Segment.bytes, hstr] at hdone
  exact ⟨s', hreach, hdone⟩

/-- **The loop for a number** writes its eight bytes in reverse. -/
theorem reaches_number (h : Writing e out w bs s) (prog : List (Line L)) (l : L)
    (hl : target prog l = .label l :: (straight (copyBody (.dec .si)) ++ .loop l :: rest))
    (hcx : s.regs .cx = 8) (hsi : s.regs .si = a + BitVec.ofNat 16 7)
    (hbuffer : Disjoint (region out k) (region a 8))
    (hsaved : Disjoint (region (e.regs .sp - 10) 10) (region a 8))
    (hn : bs.length + 8 ≤ k) (hk : k < 2 ^ 16) :
    ∃ s', Reaches prog (.running (target prog l) s) (.running rest s') ∧
      Writing e out w (bs ++ (e.mem.bytes a 8).reverse) s' := by
  have hin : ∀ i < 8, s.regs .si + BitVec.ofNat 16 i * -1 ∈ region a 8 := by
    intro i hi
    rw [hsi, step_back a (by omega)]
    exact add_mem_region _ (by omega)
  obtain ⟨hsrc, hcopy⟩ := h.copy hin hbuffer hsaved hn hk
  have hcount : (s.regs .cx).toNat = 7 + 1 := by rw [hcx]; rfl
  obtain ⟨s', hreach, hcopied⟩ := reaches_copy moves_dec hl hcount hsrc
  have hdone := hcopy s' hcopied
  rw [hsi, Segment.scan_neg_one] at hdone
  exact ⟨s', hreach, hdone⟩

end Loops

/-- The words on the stack: the saved registers. -/
theorem word_saved (h : Writing e out w bs s)
    (hst : Disjoint (region out bs.length) (region (e.regs .sp - 10) 12))
    (hd : d + 1 < (saved e).length) :
    s.mem.word (e.regs .sp - 10 + BitVec.ofNat 16 d) = join (saved e)[d + 1] (saved e)[d] := by
  have hin : region (e.regs .sp - 10 + BitVec.ofNat 16 d) 2 ⊆ region (e.regs .sp - 10) 12 :=
    region_add_subset (by have : d + 1 < 10 := hd; omega)
  rw [h.mem, Segment.word_write_of_disjoint (hst.mono_right hin), frame,
    Segment.word_write _ _ hd (show 10 ≤ 2 ^ 16 by decide)]

/-- The number of bytes written, in `AX`. -/
theorem count (h : Writing e out out bs s) :
    Writing e out out bs (execAll [.mov .ax .di, .sub .ax .bx] s) ∧
      (execAll [.mov .ax .di, .sub .ax .bx] s).regs .ax = BitVec.ofNat 16 bs.length := by
  refine ⟨(h.set _ (.inl rfl)).set _ (.inl rfl), ?_⟩
  have hax : (execAll [.mov .ax .di, .sub .ax .bx] s).regs .ax = s.regs .di - s.regs .bx := by
    simp [Op.exec]
  rw [hax, h.di, h.bx, add_sub_cancel_left]

/-- The return address is still there. -/
theorem word_return (h : Writing e out w bs s)
    (hst : Disjoint (region out bs.length) (region (e.regs .sp - 10) 12)) :
    s.mem.word (e.regs .sp) = e.mem.word (e.regs .sp) := by
  have hoff : e.regs .sp = e.regs .sp - 2 + BitVec.ofNat 16 2 := by bv_omega
  have harg : s.mem.word (s.regs .bp + BitVec.ofNat 16 2) = argument e 2 :=
    h.word_argument 2 (by decide) hst
  rwa [argument, h.bp, ← hoff] at harg

/-- All registers but `AX` get back what they held at the call. -/
theorem restored (h : Writing e out w bs s)
    (hst : Disjoint (region out bs.length) (region (e.regs .sp - 10) 12)) (m : BitVec 16) :
    (execAll restoreRegisters s).set .sp ((execAll restoreRegisters s).regs .sp + 2 + m) =
      leave e out bs (s.regs .ax) m := by
  obtain ⟨hmem, hregs⟩ := execAll_restoreRegisters s
  have hpop : ∀ d (hd : d + 1 < (saved e).length),
      s.mem.word (s.regs .sp + BitVec.ofNat 16 d) = join (saved e)[d + 1] (saved e)[d] := by
    intro d hd
    rw [h.sp, h.word_saved hst hd]
  have hbp : s.regs .bp = s.regs .sp + BitVec.ofNat 16 8 := by
    rw [h.bp, h.sp]
    bv_omega
  have hsp : s.regs .bp + 2 = e.regs .sp := by rw [h.bp, BitVec.sub_add_cancel]
  ext1
  · funext r
    rw [State.regs_set, hregs, hbp]
    cases r with
    | ax => rfl
    | bx => exact (hpop 0 (show 1 < 10 by decide)).trans (join_high_low _)
    | cx => exact (hpop 6 (show 7 < 10 by decide)).trans (join_high_low _)
    | si => exact (hpop 4 (show 5 < 10 by decide)).trans (join_high_low _)
    | di => exact (hpop 2 (show 3 < 10 by decide)).trans (join_high_low _)
    | bp => exact (hpop 8 (show 9 < 10 by decide)).trans (join_high_low _)
    | sp =>
      rw [← hbp]
      exact congrArg (· + 2 + m) hsp
  · rw [State.mem_set, hmem, h.mem]
    rfl

/-- **Leaving a routine** gives the registers back, all but `AX`. -/
theorem reaches_return {L : Type*} [DecidableEq L] (h : Writing e out w bs s)
    (prog rest : List (Line L))
    (hst : Disjoint (region out bs.length) (region (e.regs .sp - 10) 12)) (m : BitVec 16) :
    Reaches prog (.running (straight restoreRegisters ++ .ret m :: rest) s)
      (.returned (e.mem.word (e.regs .sp)) (leave e out bs (s.regs .ax) m)) := by
  obtain ⟨hmem, hregs⟩ := execAll_restoreRegisters s
  have hsp : (execAll restoreRegisters s).regs .sp = e.regs .sp := by
    rw [hregs, h.bp, BitVec.sub_add_cancel]
  have hpops : Reaches prog (.running (straight restoreRegisters ++ .ret m :: rest) s)
      (.running (.ret m :: rest) (execAll restoreRegisters s)) := reaches_straight _ s
  have hret := hpops.trans reaches_ret
  rwa [h.restored hst, hsp, hmem, h.word_return hst] at hret

end Writing

/-- Behind the first lines the buffer is empty. -/
theorem writing_nil (e : State) : Writing e (argument e 4) (e.regs .bx) []
    (execAll (saveRegisters ++ [.load .di .bp 4]) e) := by
  have hsaved := execAll_saveRegisters e
  rw [execAll_append]
  generalize execAll saveRegisters e = t at hsaved ⊢
  obtain ⟨hmem, hregs⟩ := hsaved
  have hdi : t.mem.word (t.regs .bp + BitVec.ofNat 16 4) = argument e 4 := by
    rw [hmem, hregs]
    exact word_frame e (by decide) (by decide)
  constructor
  · exact hmem.trans (Segment.write_nil _ _).symm
  · exact hdi.trans (BitVec.add_zero _).symm
  · exact congrFun hregs .bx
  · exact congrFun hregs .bp
  · exact congrFun hregs .sp

/-! ## `serialize_command` -/

/-- `Serialize` writes the high byte of a length first. -/
theorem bigEndian_two (w : BitVec 16) : bigEndian 2 w.toNat = [high w, low w] := by
  simp [bigEndian, high, low]

/-- A call of `serialize_command`, in the state of its first line, for an operation, a key and a
value: the parameters are on the stack, the key and the value are as long as it is told, and the
bytes to be written overlap neither of them, nor the stack. -/
structure CommandCall where
  entry : State
  op : UInt8
  key : Bytes
  value : Bytes
  op_eq : low (argument entry 6) = op
  keyLen_eq : (argument entry 8).toNat = key.length
  valueLen_eq : (argument entry 10).toNat = value.length
  key_eq : entry.mem.bytes (argument entry 12) key.length = key
  value_eq : entry.mem.bytes (argument entry 14) value.length = value
  buffer_stack : Disjoint (region (argument entry 4) (5 + key.length + value.length))
    (region (entry.regs .sp - 10) 24)
  buffer_key : Disjoint (region (argument entry 4) (5 + key.length + value.length))
    (region (argument entry 12) key.length)
  buffer_value : Disjoint (region (argument entry 4) (5 + key.length + value.length))
    (region (argument entry 14) value.length)
  saved_key : Disjoint (region (entry.regs .sp - 10) 10) (region (argument entry 12) key.length)
  saved_value : Disjoint (region (entry.regs .sp - 10) 10)
    (region (argument entry 14) value.length)

namespace CommandCall

variable (c : CommandCall)

/-- What `serialize_command` writes before the key. -/
def header : Bytes :=
  [c.op, low (argument c.entry 8), high (argument c.entry 8), low (argument c.entry 10),
    high (argument c.entry 10)]

/-- What `serialize_command` writes. -/
def written : Bytes := c.header ++ c.key ++ c.value

theorem length_written : c.written.length = 5 + c.key.length + c.value.length := by
  simp [written, header]
  omega

/-- The bytes fit the segment, since the stack is in it, too. -/
theorem length_lt : 5 + c.key.length + c.value.length < 2 ^ 16 :=
  length_lt_of_disjoint c.buffer_stack (by decide)

/-- As long as it is written, the buffer does not reach the stack. -/
theorem clear {n : ℕ} (hn : n ≤ 5 + c.key.length + c.value.length) :
    Disjoint (region (argument c.entry 4) n) (region (c.entry.regs .sp - 10) 24) :=
  c.buffer_stack.mono_left (region_mono hn)

/-- Up to the loop for the key. -/
theorem reaches_header : ∃ s,
    Reaches serializeCommandAsm (.running serializeCommandAsm c.entry)
      (.running (.jcxz .copyVal :: target serializeCommandAsm .copyKeyLoop) s) ∧
    Writing c.entry (argument c.entry 4) (argument c.entry 4) c.header s ∧
    s.regs .cx = argument c.entry 8 ∧ s.regs .si = argument c.entry 12 := by
  have hstart := (writing_nil c.entry).start
  have hop := hstart.byte 6 (by decide) (c.clear (by simp)) (by decide)
  have hkey := hop.length 8 (by decide) (c.clear (by simp; omega)) (by simp)
  have hvalue := hkey.length 10 (by decide) (c.clear (by simp; omega)) (by simp)
  have hsource := hvalue.source 8 12 (by decide) (by decide) (c.clear (by simp; omega))
  rw [c.op_eq] at hsource
  refine ⟨_, reaches_straight (saveRegisters ++ [.load .di .bp 4] ++ [.mov .bx .di] ++
    [.load .ax .bp 6, .storeAl .di, .inc .di] ++ writeLength 8 ++ writeLength 10 ++
    [.load .cx .bp 8, .load .si .bp 12]) c.entry, ?_⟩
  rw [execAll_append, execAll_append, execAll_append, execAll_append, execAll_append]
  exact hsource

/-- **What `serialize_command` does**: it returns, with the bytes in the buffer and their number in
`AX`. -/
theorem serializeCommand_returns : Returns serializeCommandAsm c.entry
    (leave c.entry (argument c.entry 4) c.written (BitVec.ofNat 16 c.written.length) 12) := by
  have hlt := c.length_lt
  have hhead : c.header.length = 5 := rfl
  obtain ⟨s₁, hr₁, hw₁, hcx₁, hsi₁⟩ := c.reaches_header
  obtain ⟨s₂, hr₂, hw₂⟩ := hw₁.reaches_string serializeCommandAsm .copyKeyLoop .copyVal rfl
    (by rw [hcx₁, c.keyLen_eq]) hsi₁ c.key_eq c.buffer_key c.saved_key (by omega) hlt
  have hlen : (c.header ++ c.key).length = 5 + c.key.length := by rw [List.length_append, hhead]
  obtain ⟨hw₃, hcx₃, hsi₃⟩ := hw₂.source 10 14 (by decide) (by decide) (c.clear (by omega))
  obtain ⟨s₄, hr₄, hw₄⟩ := hw₃.reaches_string serializeCommandAsm .copyValLoop .doneSerialize rfl
    (by rw [hcx₃, c.valueLen_eq]) hsi₃ c.value_eq c.buffer_value c.saved_value (by omega) hlt
  obtain ⟨hw₅, hax⟩ := hw₄.count
  have hbetween : Reaches serializeCommandAsm (.running (target serializeCommandAsm .copyVal) s₂)
      (.running (.jcxz .doneSerialize :: target serializeCommandAsm .copyValLoop)
        (execAll [.load .cx .bp 10, .load .si .bp 14] s₂)) :=
    reaches_label.trans (reaches_straight [.load .cx .bp 10, .load .si .bp 14] s₂)
  have hcount : Reaches serializeCommandAsm
      (.running (target serializeCommandAsm .doneSerialize) s₄)
      (.running (straight restoreRegisters ++ [.ret 12])
        (execAll [.mov .ax .di, .sub .ax .bx] s₄)) :=
    reaches_label.trans (reaches_straight [.mov .ax .di, .sub .ax .bx] s₄)
  have hstack : Disjoint (region (argument c.entry 4) c.written.length)
      (region (c.entry.regs .sp - 10) 12) :=
    (c.clear c.length_written.le).mono_right (region_mono (by decide))
  have hreturn := hw₅.reaches_return serializeCommandAsm [] hstack 12
  rw [hax] at hreturn
  exact (((hr₁.trans hr₂).trans hbetween).trans hr₄).trans (hcount.trans hreturn)

/-- **The routine agrees with `Serialize`**: it returns, the bytes are the same, and `AX` counts
them. -/
def Agrees : Prop := ∃ s', Returns serializeCommandAsm c.entry s' ∧
  s'.mem.bytes (argument c.entry 4) (5 + c.key.length + c.value.length) =
    serialize c.op c.key.length c.value.length c.key c.value ∧
  (s'.regs .ax).toNat = (serialize c.op c.key.length c.value.length c.key c.value).length

/-- What `Serialize` makes of the same operation, key and value. -/
theorem serialize_eq : serialize c.op c.key.length c.value.length c.key c.value =
    [c.op, high (argument c.entry 8), low (argument c.entry 8), high (argument c.entry 10),
      low (argument c.entry 10)] ++ c.key ++ c.value := by
  rw [serialize, ← c.keyLen_eq, ← c.valueLen_eq, bigEndian_two, bigEndian_two]
  simp

/-- Both write the same when the halves of each length are the same. -/
theorem written_eq_serialize_iff :
    c.written = serialize c.op c.key.length c.value.length c.key c.value ↔
      257 ∣ c.key.length ∧ 257 ∣ c.value.length := by
  rw [serialize_eq, written, header, List.append_left_inj, List.append_left_inj,
    ← c.keyLen_eq, ← c.valueLen_eq, ← low_eq_high_iff, ← low_eq_high_iff]
  simp only [List.cons.injEq, true_and, and_true]
  constructor
  · rintro ⟨hkey, -, hvalue, -⟩
    exact ⟨hkey, hvalue⟩
  · rintro ⟨hkey, hvalue⟩
    exact ⟨hkey, hkey.symm, hvalue, hvalue.symm⟩

theorem agrees_iff : c.Agrees ↔ 257 ∣ c.key.length ∧ 257 ∣ c.value.length := by
  have hlt := c.length_lt
  rw [← c.written_eq_serialize_iff]
  constructor
  · rintro ⟨s', hs', hbytes, -⟩
    rwa [hs'.unique c.serializeCommand_returns, bytes_leave _ _ c.length_written hlt] at hbytes
  · intro heq
    refine ⟨_, c.serializeCommand_returns, ?_, ?_⟩
    · rw [bytes_leave _ _ c.length_written hlt, heq]
    rw [← heq]
    show (BitVec.ofNat 16 c.written.length).toNat = c.written.length
    rw [BitVec.toNat_ofNat, Nat.mod_eq_of_lt (by rw [c.length_written]; exact hlt)]

end CommandCall

/-! ## `serialize_log` -/

/-- A call of `serialize_log`, in the state of its first line, for a term and an index: the
parameters are on the stack, both numbers are in memory from their lowest byte up, and the 16 bytes
to be written overlap neither of them, nor the stack. -/
structure LogCall where
  entry : State
  term : UInt64
  index : UInt64
  term_eq : entry.mem.bytes (argument entry 6) 8 = (bigEndian 8 term.toNat).reverse
  index_eq : entry.mem.bytes (argument entry 8) 8 = (bigEndian 8 index.toNat).reverse
  buffer_stack : Disjoint (region (argument entry 4) 16) (region (entry.regs .sp - 10) 18)
  buffer_term : Disjoint (region (argument entry 4) 16) (region (argument entry 6) 8)
  buffer_index : Disjoint (region (argument entry 4) 16) (region (argument entry 8) 8)
  saved_term : Disjoint (region (entry.regs .sp - 10) 10) (region (argument entry 6) 8)
  saved_index : Disjoint (region (entry.regs .sp - 10) 10) (region (argument entry 8) 8)

namespace LogCall

variable (c : LogCall)

/-- What `serialize_log` writes. -/
def written : Bytes := bigEndian 8 c.term.toNat ++ bigEndian 8 c.index.toNat

theorem length_written : c.written.length = 16 := by
  rw [written, List.length_append, length_bigEndian, length_bigEndian]

theorem clear {n : ℕ} (hn : n ≤ 16) :
    Disjoint (region (argument c.entry 4) n) (region (c.entry.regs .sp - 10) 18) :=
  c.buffer_stack.mono_left (region_mono hn)

/-- **What `serialize_log` does**: it returns, with the bytes in the buffer. -/
theorem serializeLog_returns : ∃ ax, Returns serializeLogAsm c.entry
    (leave c.entry (argument c.entry 4) c.written ax 6) := by
  obtain ⟨hw₁, hcx₁, hsi₁⟩ :=
    (writing_nil c.entry).highest 6 (by decide) (c.clear (Nat.zero_le 16))
  obtain ⟨s₂, hr₂, hw₂⟩ := hw₁.reaches_number serializeLogAsm .writeTermLoop rfl hcx₁ hsi₁
    c.buffer_term c.saved_term (by decide) (by decide)
  rw [List.nil_append, c.term_eq, List.reverse_reverse] at hw₂
  have hlen : (bigEndian 8 c.term.toNat).length = 8 := length_bigEndian 8 _
  obtain ⟨hw₃, hcx₃, hsi₃⟩ := hw₂.highest 8 (by decide) (c.clear (by omega))
  obtain ⟨s₄, hr₄, hw₄⟩ := hw₃.reaches_number serializeLogAsm .writeIndexLoop rfl hcx₃ hsi₃
    c.buffer_index c.saved_index (by omega) (by decide)
  rw [c.index_eq, List.reverse_reverse] at hw₄
  have hhead : Reaches serializeLogAsm (.running serializeLogAsm c.entry)
      (.running (target serializeLogAsm .writeTermLoop)
        (execAll (saveRegisters ++ [.load .di .bp 4] ++
          [.movi .cx 8, .load .si .bp 6, .addi .si 7]) c.entry)) :=
    reaches_straight (saveRegisters ++ [.load .di .bp 4] ++
      [.movi .cx 8, .load .si .bp 6, .addi .si 7]) c.entry
  rw [execAll_append] at hhead
  have hbetween : Reaches serializeLogAsm
      (.running (straight [.movi .cx 8, .load .si .bp 8, .addi .si 7] ++
        target serializeLogAsm .writeIndexLoop) s₂)
      (.running (target serializeLogAsm .writeIndexLoop)
        (execAll [.movi .cx 8, .load .si .bp 8, .addi .si 7] s₂)) :=
    reaches_straight [.movi .cx 8, .load .si .bp 8, .addi .si 7] s₂
  have hstack : Disjoint (region (argument c.entry 4) c.written.length)
      (region (c.entry.regs .sp - 10) 12) :=
    (c.clear c.length_written.le).mono_right (region_mono (by decide))
  have hreturn := hw₄.reaches_return serializeLogAsm [] hstack 6
  exact ⟨_, (((hhead.trans hr₂).trans hbetween).trans hr₄).trans (reaches_label.trans hreturn)⟩

/-- **The routine agrees with `SerializeLogEntry`**: it returns, and the bytes are the first 16 of
every entry with this term and this index. -/
def Agrees : Prop := ∃ s', Returns serializeLogAsm c.entry s' ∧ ∀ command,
  s'.mem.bytes (argument c.entry 4) 16 =
    (serializeLogEntry ⟨c.term.toNat, c.index.toNat, command⟩).take 16

/-- The first 16 bytes of an entry. -/
theorem take_serializeLogEntry (command : Command) :
    (serializeLogEntry ⟨c.term.toNat, c.index.toNat, command⟩).take 16 = c.written := by
  rw [serializeLogEntry, LogEntry.payload, ← List.append_assoc, List.append_assoc]
  exact List.take_left' c.length_written

theorem agrees : c.Agrees := by
  obtain ⟨ax, hreturns⟩ := c.serializeLog_returns
  refine ⟨_, hreturns, fun command => ?_⟩
  rw [bytes_leave _ _ c.length_written (by decide), c.take_serializeLogEntry]

end LogCall

/-! ## Both routines -/

/-- **The assembly agrees with the C++** exactly where the halves of both lengths are the same: at
multiples of `257`. -/
theorem assembly_agrees_iff (c : CommandCall) (l : LogCall) :
    c.Agrees ∧ l.Agrees ↔ 257 ∣ c.key.length ∧ 257 ∣ c.value.length := by
  rw [and_iff_left l.agrees]
  exact c.agrees_iff

/-- The state in which the program in `command_serialize.asm` calls the routine: `name` at `0x108`,
`alice` at `0x10C`, the buffer at `0x111`, and seven words on the stack. -/
def ownEntry : State where
  regs r := if r = .sp then 0xFFF0 else 0
  mem := (Segment.write (fun _ => 0) 0x103
    [1, 4, 0, 5, 0, 110, 97, 109, 101, 97, 108, 105, 99, 101]).write 0xFFF0
    [0x00, 0x03, 0x11, 0x01, 1, 0, 4, 0, 5, 0, 0x08, 0x01, 0x0C, 0x01]

/-- The command of that program. -/
def ownCommand : CommandCall where
  entry := ownEntry
  op := 1
  key := [110, 97, 109, 101]
  value := [97, 108, 105, 99, 101]
  op_eq := by decide +kernel
  keyLen_eq := by decide +kernel
  valueLen_eq := by decide +kernel
  key_eq := by decide +kernel
  value_eq := by decide +kernel
  buffer_stack := disjoint_region (by decide +kernel) (by decide +kernel)
  buffer_key := (disjoint_region (by decide +kernel) (by decide +kernel)).symm
  buffer_value := (disjoint_region (by decide +kernel) (by decide +kernel)).symm
  saved_key := (disjoint_region (by decide +kernel) (by decide +kernel)).symm
  saved_value := (disjoint_region (by decide +kernel) (by decide +kernel)).symm

/-- The state in which the program in `log_serialize.asm` calls the routine: the term 5 at `0x103`,
the index 16 at `0x10B`, the buffer at `0x113`, and four words on the stack. -/
def ownLogEntry : State where
  regs r := if r = .sp then 0xFFF6 else 0
  mem := (Segment.write (fun _ => 0) 0x103 [5, 0, 0, 0, 0, 0, 0, 0, 0x10]).write 0xFFF6
    [0x00, 0x03, 0x13, 0x01, 0x03, 0x01, 0x0B, 0x01]

/-- The term and the index of that program. -/
def ownLog : LogCall where
  entry := ownLogEntry
  term := 5
  index := 16
  term_eq := by decide +kernel
  index_eq := by decide +kernel
  buffer_stack := disjoint_region (by decide +kernel) (by decide +kernel)
  buffer_term := (disjoint_region (by decide +kernel) (by decide +kernel)).symm
  buffer_index := (disjoint_region (by decide +kernel) (by decide +kernel)).symm
  saved_term := (disjoint_region (by decide +kernel) (by decide +kernel)).symm
  saved_index := (disjoint_region (by decide +kernel) (by decide +kernel)).symm

/-- The calls of the two programs. -/
theorem assembly_agrees_iff_own : ¬ (ownCommand.Agrees ∧ ownLog.Agrees) := by
  rw [assembly_agrees_iff]
  decide

/-- The lengths `4` and `5` of `ownCommand` come out as `0x0400` and `0x0500`. -/
theorem ownCommand_disagrees : ¬ ownCommand.Agrees ∧ ∃ s',
    Returns serializeCommandAsm ownEntry s' ∧ s'.mem.bytes 0x111 14 =
      [1, 4, 0, 5, 0, 110, 97, 109, 101, 97, 108, 105, 99, 101] := by
  constructor
  · rw [ownCommand.agrees_iff]
    decide
  · refine ⟨_, ownCommand.serializeCommand_returns, ?_⟩
    have hbuffer : argument ownEntry 4 = 0x111 := by decide +kernel
    have hwritten : ownCommand.written =
        [1, 4, 0, 5, 0, 110, 97, 109, 101, 97, 108, 105, 99, 101] := by decide +kernel
    rw [← hbuffer, ← hwritten]
    exact bytes_leave _ _ ownCommand.length_written (by decide) _ _

end RaftConsensus.Assembly
