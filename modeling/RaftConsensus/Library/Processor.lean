import RaftConsensus.Library.Segment
import Mathlib.Logic.Relation

/-!
# A 16-bit processor

The part of the 8086 that byte-copying routines need: moves between registers and memory, the stack,
the two halves of `AX`, counting, and the jumps on `CX`.  All of it works in one segment, as a
program does whose segment registers agree.  The flags are left out, since no instruction here
reads them.

The text of a routine is a list of lines, and what is still to be executed is a rest of this list.
A jump goes to the line with the label, and `ret` leaves the routine.  The text is not part of the
segment: no line is overwritten.

* `reaches_straight`: a block without jumps does what its instructions do, one after another.
* `reaches_turn`: one turn of a `loop`, which leads to the next or out of it.
* `Returns.unique`: a routine returns in one way.
* `reaches_copy`: the loop that copies `CX` bytes, forwards or backwards; `reaches_jcxz_copy` is the
  same loop behind a test for no bytes at all.
-/

namespace RaftConsensus.Processor

open Relation

inductive Reg
  | ax | bx | cx | si | di | bp | sp
  deriving DecidableEq, Repr

/-- The registers and the memory. -/
@[ext] structure State where
  regs : Reg → BitVec 16
  mem : Segment

namespace State

def set (s : State) (r : Reg) (w : BitVec 16) : State :=
  { s with regs := Function.update s.regs r w }

/-- The bytes `bs` in memory at `a`. -/
def put (s : State) (a : BitVec 16) (bs : List UInt8) : State := { s with mem := s.mem.write a bs }

variable (s : State) (r q : Reg) (a w : BitVec 16) (bs : List UInt8)

@[simp] theorem regs_set : (s.set r w).regs q = if q = r then w else s.regs q :=
  Function.update_apply s.regs r w q

@[simp] theorem mem_set : (s.set r w).mem = s.mem := rfl

@[simp] theorem regs_put : (s.put a bs).regs = s.regs := rfl

@[simp] theorem mem_put : (s.put a bs).mem = s.mem.write a bs := rfl

end State

/-- The instructions that go on to the next line. -/
inductive Op
  | push (r : Reg)
  | pop (r : Reg)
  /-- `mov r, q` -/
  | mov (r q : Reg)
  /-- `mov r, n` -/
  | movi (r : Reg) (n : BitVec 16)
  /-- `mov r, [q + d]` -/
  | load (r q : Reg) (d : BitVec 16)
  /-- `mov al, [q]` -/
  | loadAl (q : Reg)
  /-- `mov [q], al` -/
  | storeAl (q : Reg)
  /-- `mov [q], ah` -/
  | storeAh (q : Reg)
  /-- `xchg ah, al` -/
  | xchgAhAl
  | inc (r : Reg)
  | dec (r : Reg)
  /-- `add r, n` -/
  | addi (r : Reg) (n : BitVec 16)
  /-- `sub r, q` -/
  | sub (r q : Reg)
  deriving DecidableEq, Repr

/-- What an instruction does. -/
def Op.exec : Op → State → State
  | .push r, s =>
    (s.put (s.regs .sp - 2) [low (s.regs r), high (s.regs r)]).set .sp (s.regs .sp - 2)
  | .pop r, s => (s.set .sp (s.regs .sp + 2)).set r (s.mem.word (s.regs .sp))
  | .mov r q, s => s.set r (s.regs q)
  | .movi r n, s => s.set r n
  | .load r q d, s => s.set r (s.mem.word (s.regs q + d))
  | .loadAl q, s => s.set .ax (join (high (s.regs .ax)) (s.mem (s.regs q)))
  | .storeAl q, s => s.put (s.regs q) [low (s.regs .ax)]
  | .storeAh q, s => s.put (s.regs q) [high (s.regs .ax)]
  | .xchgAhAl, s => s.set .ax (join (low (s.regs .ax)) (high (s.regs .ax)))
  | .inc r, s => s.set r (s.regs r + 1)
  | .dec r, s => s.set r (s.regs r - 1)
  | .addi r n, s => s.set r (s.regs r + n)
  | .sub r q, s => s.set r (s.regs r - s.regs q)

/-- One instruction after another. -/
def execAll (ops : List Op) (s : State) : State := ops.foldl (fun s o => o.exec s) s

@[simp] theorem execAll_nil (s : State) : execAll [] s = s := rfl

@[simp] theorem execAll_cons (o : Op) (ops : List Op) (s : State) :
    execAll (o :: ops) s = execAll ops (o.exec s) := rfl

theorem execAll_append (ops ops' : List Op) (s : State) :
    execAll (ops ++ ops') s = execAll ops' (execAll ops s) := List.foldl_append

variable {L : Type*}

/-- A line of a routine with labels in `L`. -/
inductive Line (L : Type*)
  | op (o : Op)
  | label (l : L)
  | jcxz (l : L)
  | loop (l : L)
  /-- `ret n`, which also takes `n` bytes of parameters off the stack. -/
  | ret (n : BitVec 16)
  deriving DecidableEq, Repr

/-- The lines of a block without jumps. -/
def straight (ops : List Op) : List (Line L) := ops.map .op

/-- Inside a routine, with the lines still to come, or back at the offset `ip`. -/
inductive Config (L : Type*)
  | running (rest : List (Line L)) (s : State)
  | returned (ip : BitVec 16) (s : State)

variable [DecidableEq L]

/-- The lines from the label `l` on. -/
def target (prog : List (Line L)) (l : L) : List (Line L) := prog.dropWhile (· ≠ .label l)

/-- One line.  There is no step after the return, and none past the end of the text. -/
def step (prog : List (Line L)) : Config L → Option (Config L)
  | .running (.op o :: rest) s => some (.running rest (o.exec s))
  | .running (.label _ :: rest) s => some (.running rest s)
  | .running (.jcxz l :: rest) s =>
    some (.running (if s.regs .cx = 0 then target prog l else rest) s)
  | .running (.loop l :: rest) s =>
    some (.running (if s.regs .cx - 1 ≠ 0 then target prog l else rest)
      (s.set .cx (s.regs .cx - 1)))
  | .running (.ret n :: _) s =>
    some (.returned (s.mem.word (s.regs .sp)) (s.set .sp (s.regs .sp + 2 + n)))
  | .running [] _ => none
  | .returned _ _ => none

/-- What a routine comes to. -/
abbrev Reaches (prog : List (Line L)) : Config L → Config L → Prop :=
  ReflTransGen fun c d => step prog c = some d

/-- Called in the state `s`, with the return address on top of the stack, the routine goes back to
this address in the state `s'`. -/
def Returns (prog : List (Line L)) (s s' : State) : Prop :=
  Reaches prog (.running prog s) (.returned (s.mem.word (s.regs .sp)) s')

variable {prog rest : List (Line L)} {l : L} {s s' t : State}

/-- **A routine returns in one way**. -/
theorem Returns.unique (h : Returns prog s s') (h' : Returns prog s t) : s' = t := by
  have hdet : Relator.RightUnique fun c d : Config L => step prog c = some d := by
    intro c d e hd he
    exact Option.some.inj (hd.symm.trans he)
  have hstop : ∀ {ip u d}, Reaches prog (.returned ip u) d → d = .returned ip u := by
    intro ip u d hd
    rcases hd.cases_head with heq | ⟨e, he, _⟩
    · exact heq.symm
    · exact absurd he (by simp [step])
  rcases ReflTransGen.total_of_right_unique hdet h h' with hst | hst
  · exact (Config.returned.inj (hstop hst)).2.symm
  · exact (Config.returned.inj (hstop hst)).2

/-! ## Blocks and loops -/

theorem reaches_op (o : Op) :
    Reaches prog (.running (.op o :: rest) s) (.running rest (o.exec s)) :=
  .single rfl

theorem reaches_label :
    Reaches prog (.running (.label l :: rest) s) (.running rest s) :=
  .single rfl

/-- **A block without jumps** does what its instructions do. -/
theorem reaches_straight (ops : List Op) (s : State) :
    Reaches prog (.running (straight ops ++ rest) s) (.running rest (execAll ops s)) := by
  induction ops generalizing s with
  | nil => exact .refl
  | cons o ops ih => exact (reaches_op o).trans (ih (o.exec s))

theorem reaches_jcxz_of_zero (h : s.regs .cx = 0) :
    Reaches prog (.running (.jcxz l :: rest) s) (.running (target prog l) s) := by
  have hstep : step prog (.running (.jcxz l :: rest) s) = some (.running (target prog l) s) := by
    rw [step, if_pos h]
  exact .single hstep

theorem reaches_jcxz_of_ne (h : s.regs .cx ≠ 0) :
    Reaches prog (.running (.jcxz l :: rest) s) (.running rest s) := by
  have hstep : step prog (.running (.jcxz l :: rest) s) = some (.running rest s) := by
    rw [step, if_neg h]
  exact .single hstep

theorem reaches_ret {n : BitVec 16} :
    Reaches prog (.running (.ret n :: rest) s)
      (.returned (s.mem.word (s.regs .sp)) (s.set .sp (s.regs .sp + 2 + n))) :=
  .single rfl

/-- The state after the body of a loop and its `loop`. -/
def turn (body : List Op) (s : State) : State :=
  (execAll body s).set .cx ((execAll body s).regs .cx - 1)

/-- **One turn of a loop** leads to the next one, or out of the loop when `CX` has come to zero. -/
theorem reaches_turn {body : List Op}
    (hl : target prog l = .label l :: (straight body ++ .loop l :: rest)) (s : State) :
    Reaches prog (.running (target prog l) s)
      (.running (if (turn body s).regs .cx ≠ 0 then target prog l else rest) (turn body s)) := by
  have hbody : Reaches prog (.running (target prog l) s)
      (.running (.loop l :: rest) (execAll body s)) := by
    rw [hl]
    exact reaches_label.trans (reaches_straight body s)
  have hloop : step prog (.running (.loop l :: rest) (execAll body s)) =
      some (.running (if (turn body s).regs .cx ≠ 0 then target prog l else rest)
        (turn body s)) := by
    simp [step, turn]
  exact hbody.tail hloop

/-! ## Copying -/

/-- The body of a copying loop: a byte from `[SI]` to `[DI]`.  The instruction `o` moves `SI` on. -/
def copyBody (o : Op) : List Op := [.loadAl .si, .storeAl .di, o, .inc .di]

/-- How `o` moves `SI`. -/
def Moves (o : Op) (δ : BitVec 16) : Prop := ∀ s : State, o.exec s = s.set .si (s.regs .si + δ)

theorem moves_inc : Moves (.inc .si) 1 := fun _ => rfl

theorem moves_dec : Moves (.dec .si) (-1) := by
  intro s
  rw [Op.exec, sub_eq_add_neg]

/-- What `n` bytes copied from `[SI]` to `[DI]` make of the state: the copy is behind `DI`, and only
the registers of the loop have changed. -/
structure Copied (δ : BitVec 16) (n : ℕ) (s s' : State) : Prop where
  mem : s'.mem = s.mem.write (s.regs .di) (s.mem.scan δ (s.regs .si) n)
  di : s'.regs .di = s.regs .di + BitVec.ofNat 16 n
  regs : ∀ r, r ≠ .ax → r ≠ .cx → r ≠ .si → r ≠ .di → s'.regs r = s.regs r

theorem Copied.zero (δ : BitVec 16) (s : State) : Copied δ 0 s s where
  mem := by simp [Segment.scan]
  di := by simp
  regs _ _ _ _ _ := rfl

variable {o : Op} {δ : BitVec 16} {n : ℕ}

/-- One turn copies one byte. -/
theorem copied_turn (ho : Moves o δ) (s : State) :
    Copied δ 1 s (turn (copyBody o) s) ∧
      (turn (copyBody o) s).regs .si = s.regs .si + δ ∧
      (turn (copyBody o) s).regs .cx = s.regs .cx - 1 := by
  have hturn : turn (copyBody o) s =
      (((((Op.loadAl .si).exec s).put (s.regs .di) [s.mem (s.regs .si)]).set .si
        (s.regs .si + δ)).set .di (s.regs .di + 1)).set .cx (s.regs .cx - 1) := by
    have hmove : ∀ u : State, o.exec u = u.set .si (u.regs .si + δ) := ho
    simp only [turn, copyBody, execAll_cons, execAll_nil, hmove]
    simp [Op.exec]
  rw [hturn]
  refine ⟨⟨?_, ?_, ?_⟩, ?_, ?_⟩
  · simp [Op.exec, Segment.scan]
  · simp
  · intro r hax hcx hsi hdi
    simp [Op.exec, hax, hcx, hsi, hdi]
  · simp
  · simp

/-- Copying goes on where it stopped, if the bytes to come are not those just written. -/
theorem Copied.succ (h : Copied δ 1 s t) (hsi : t.regs .si = s.regs .si + δ)
    (h' : Copied δ n t s') (hn : n + 1 < 2 ^ 16)
    (hsrc : ∀ i < n + 1, s.regs .si + BitVec.ofNat 16 i * δ ∉ region (s.regs .di) (n + 1)) :
    Copied δ (n + 1) s s' := by
  have hread : t.mem.scan δ (t.regs .si) n = s.mem.scan δ (s.regs .si + δ) n := by
    rw [hsi]
    apply Segment.scan_congr
    intro i hi
    have hout : s.regs .si + BitVec.ofNat 16 (i + 1) * δ ∉ region (s.regs .di) 1 :=
      fun hin => hsrc (i + 1) (by omega) (region_mono (by omega) hin)
    rw [h.mem, add_step, Segment.write_of_notMem (by rwa [Segment.length_scan])]
  constructor
  · have hfit : (s.mem.scan δ (s.regs .si) 1).length +
        (s.mem.scan δ (s.regs .si + δ) n).length < 2 ^ 16 := by
      rw [Segment.length_scan, Segment.length_scan]
      omega
    rw [h'.mem, hread, h.di, h.mem]
    exact Segment.write_append s.mem (s.regs .di) hfit
  · have hsucc : BitVec.ofNat 16 (n + 1) = BitVec.ofNat 16 n + 1 := BitVec.ofNat_add n 1
    rw [h'.di, h.di, hsucc, add_assoc, add_comm (BitVec.ofNat 16 1)]
    rfl
  · intro r hax hcx hsi hdi
    rw [h'.regs r hax hcx hsi hdi, h.regs r hax hcx hsi hdi]

/-- **The copying loop** copies as many bytes as `CX` says, if it does not write on what it has yet
to read. -/
theorem reaches_copy (ho : Moves o δ)
    (hl : target prog l = .label l :: (straight (copyBody o) ++ .loop l :: rest)) :
    ∀ {n : ℕ} {s : State}, (s.regs .cx).toNat = n + 1 →
      (∀ i < n + 1, s.regs .si + BitVec.ofNat 16 i * δ ∉ region (s.regs .di) (n + 1)) →
      ∃ s', Reaches prog (.running (target prog l) s) (.running rest s') ∧
        Copied δ (n + 1) s s' := by
  intro n
  induction n with
  | zero =>
    intro s hcx _
    obtain ⟨hcopied, _, hcx'⟩ := copied_turn ho s
    have hend : (turn (copyBody o) s).regs .cx = 0 := by
      rw [hcx']
      bv_omega
    refine ⟨turn (copyBody o) s, ?_, hcopied⟩
    have h := reaches_turn hl s
    rwa [if_neg (not_not.mpr hend)] at h
  | succ n ih =>
    intro s hcx hsrc
    obtain ⟨hcopied, hsi, hcx'⟩ := copied_turn ho s
    have hcount : ((turn (copyBody o) s).regs .cx).toNat = n + 1 := by
      rw [hcx']
      bv_omega
    have hgo : (turn (copyBody o) s).regs .cx ≠ 0 := by
      intro h0
      rw [h0] at hcount
      exact absurd hcount (by simp)
    have hlt : n + 1 + 1 < 2 ^ 16 := by
      rw [← hcx]
      exact (s.regs .cx).isLt
    obtain ⟨s', hreach, hrest⟩ := ih hcount (by
      intro i hi hin
      rw [hcopied.di, hsi, add_step] at hin
      exact hsrc (i + 1) (by omega) (region_add_subset (by omega) hin))
    refine ⟨s', ?_, hcopied.succ hsi hrest hlt hsrc⟩
    have h := reaches_turn hl s
    rw [if_pos hgo] at h
    exact h.trans hreach

/-- The same behind a `jcxz` that skips the loop. -/
theorem reaches_jcxz_copy {skip : L} (ho : Moves o δ)
    (hl : target prog l = .label l :: (straight (copyBody o) ++ .loop l :: rest))
    (hskip : target prog skip = rest) (hcx : (s.regs .cx).toNat = n)
    (hsrc : ∀ i < n, s.regs .si + BitVec.ofNat 16 i * δ ∉ region (s.regs .di) n) :
    ∃ s', Reaches prog (.running (.jcxz skip :: target prog l) s) (.running rest s') ∧
      Copied δ n s s' := by
  cases n with
  | zero =>
    have hzero : s.regs .cx = 0 := BitVec.eq_of_toNat_eq hcx
    refine ⟨s, ?_, Copied.zero δ s⟩
    rw [← hskip]
    exact reaches_jcxz_of_zero hzero
  | succ n =>
    have hne : s.regs .cx ≠ 0 := by
      intro h0
      rw [h0] at hcx
      exact absurd hcx (by simp)
    obtain ⟨s', hreach, hcopied⟩ := reaches_copy ho hl hcx hsrc
    exact ⟨s', (reaches_jcxz_of_ne hne).trans hreach, hcopied⟩

end RaftConsensus.Processor
