import Mathlib.Data.BitVec
import Mathlib.Data.Set.Lattice
import Mathlib.Order.CompletePartialOrder
import Mathlib.Tactic.Ring

/-!
# A segment of 64 KiB

The memory of a 16-bit program: a byte at each of the `2 ^ 16` offsets.  Offsets wrap around, so a
stretch of `n` bytes from `a` is the set `region a n` of those offsets whose distance from `a` is
below `n`; nothing has to be assumed about where it ends.

`write m a bs` puts a string of bytes at `a`, and `scan m δ a n` reads `n` bytes from `a` on, going
on by `δ` after each, so that `δ = -1` reads backwards.

* `write_append` and `write_prepend` join two writes that stand next to each other.
* `bytes_write` reads a string where it was written, `word_write` a word of it.
* `write_of_disjoint` and `word_write_of_disjoint` say that a write elsewhere is not seen.
* `scan_neg_one` reads a string backwards.
-/

namespace RaftConsensus

/-! ## Words and their halves -/

/-- The low byte of a word. -/
def low (w : BitVec 16) : UInt8 := UInt8.ofNat w.toNat

/-- The high byte of a word. -/
def high (w : BitVec 16) : UInt8 := UInt8.ofNat (w.toNat / 256)

/-- The word with these two bytes. -/
def join (h l : UInt8) : BitVec 16 := BitVec.ofNat 16 (h.toNat * 256 + l.toNat)

theorem toNat_join (h l : UInt8) : (join h l).toNat = h.toNat * 256 + l.toNat := by
  have hh := h.toNat_lt
  have hl := l.toNat_lt
  rw [join, BitVec.toNat_ofNat, Nat.mod_eq_of_lt (by omega)]

@[simp] theorem toNat_low (w : BitVec 16) : (low w).toNat = w.toNat % 256 := by
  rw [low, UInt8.toNat_ofNat']

@[simp] theorem toNat_high (w : BitVec 16) : (high w).toNat = w.toNat / 256 := by
  have hw := w.isLt
  rw [high, UInt8.toNat_ofNat', Nat.mod_eq_of_lt (by omega)]

@[simp] theorem low_join (h l : UInt8) : low (join h l) = l := by
  have hl := l.toNat_lt
  rw [← UInt8.toNat_inj, toNat_low, toNat_join]
  omega

@[simp] theorem high_join (h l : UInt8) : high (join h l) = h := by
  have hl := l.toNat_lt
  rw [← UInt8.toNat_inj, toNat_high, toNat_join]
  omega

@[simp] theorem join_high_low (w : BitVec 16) : join (high w) (low w) = w := by
  rw [← BitVec.toNat_inj, toNat_join, toNat_high, toNat_low]
  omega

/-- Both halves of a word are the same byte just when it is a multiple of `257`. -/
theorem low_eq_high_iff (w : BitVec 16) : low w = high w ↔ 257 ∣ w.toNat := by
  have hw := w.isLt
  rw [← UInt8.toNat_inj, toNat_low, toNat_high]
  omega

/-! ## Stretches of memory -/

/-- The offsets of `n` bytes from `a` on. -/
def region (a : BitVec 16) (n : ℕ) : Set (BitVec 16) := {x | (x - a).toNat < n}

variable {a b x δ : BitVec 16} {i n k : ℕ}

theorem mem_region : x ∈ region a n ↔ (x - a).toNat < n := Iff.rfl

theorem toNat_offset (a : BitVec 16) (i : ℕ) : (a + BitVec.ofNat 16 i - a).toNat = i % 2 ^ 16 := by
  rw [add_sub_cancel_left, BitVec.toNat_ofNat]

theorem add_mem_region (a : BitVec 16) (hi : i < n) : a + BitVec.ofNat 16 i ∈ region a n := by
  rw [mem_region, toNat_offset]
  exact lt_of_le_of_lt (Nat.mod_le _ _) hi

theorem region_mono (h : n ≤ k) : region a n ⊆ region a k := fun _ hx => lt_of_lt_of_le hx h

/-- A stretch inside another one. -/
theorem region_add_subset (h : i + n ≤ k) : region (a + BitVec.ofNat 16 i) n ⊆ region a k := by
  intro x hx
  have hsum : x - a = x - (a + BitVec.ofNat 16 i) + BitVec.ofNat 16 i := by ring
  rw [mem_region] at hx ⊢
  calc (x - a).toNat ≤ (x - (a + BitVec.ofNat 16 i)).toNat + (BitVec.ofNat 16 i).toNat := by
        rw [hsum, BitVec.toNat_add]
        exact Nat.mod_le _ _
    _ ≤ (x - (a + BitVec.ofNat 16 i)).toNat + i := by
        rw [BitVec.toNat_ofNat]
        exact Nat.add_le_add_left (Nat.mod_le _ _) _
    _ < k := by omega

/-- One step of `δ`, and `i` more. -/
theorem add_step (a δ : BitVec 16) (i : ℕ) :
    a + δ + BitVec.ofNat 16 i * δ = a + BitVec.ofNat 16 (i + 1) * δ := by
  have hsucc : BitVec.ofNat 16 (i + 1) = BitVec.ofNat 16 i + 1 := BitVec.ofNat_add i 1
  rw [hsucc]
  ring

/-- Back from the last byte. -/
theorem step_back (a : BitVec 16) (hi : i ≤ n) :
    a + BitVec.ofNat 16 n + BitVec.ofNat 16 i * -1 = a + BitVec.ofNat 16 (n - i) := by
  have hsum : BitVec.ofNat 16 n = BitVec.ofNat 16 (n - i) + BitVec.ofNat 16 i := by
    rw [← BitVec.ofNat_add, Nat.sub_add_cancel hi]
  rw [hsum]
  ring

/-- A stretch that leaves anything free is shorter than the segment. -/
theorem length_lt_of_disjoint (h : Disjoint (region a n) (region b k)) (hk : 0 < k) :
    n < 2 ^ 16 := by
  have hb : b ∈ region b k := by rw [mem_region, BitVec.sub_self]; exact hk
  have hn : b ∉ region a n := Set.disjoint_right.mp h hb
  rw [mem_region] at hn
  have := (b - a).isLt
  omega

/-- Two stretches that do not wrap around, one behind the other, are disjoint. -/
theorem disjoint_region (hab : a.toNat + n ≤ b.toNat) (hb : b.toNat + k ≤ 2 ^ 16) :
    Disjoint (region a n) (region b k) := by
  rw [Set.disjoint_left]
  intro x ha hx
  rw [mem_region, BitVec.toNat_sub] at ha hx
  have := x.isLt
  omega

/-- Two stretches of one stack frame, one behind the other. -/
theorem disjoint_region_add (a : BitVec 16) (hi : n ≤ i) (hk : i + k ≤ 2 ^ 16) :
    Disjoint (region a n) (region (a + BitVec.ofNat 16 i) k) := by
  rw [Set.disjoint_left]
  intro x hx hx'
  have hsum : x - (a + BitVec.ofNat 16 i) = x - a - BitVec.ofNat 16 i := by ring
  rw [mem_region] at hx hx'
  rw [hsum, BitVec.toNat_sub, BitVec.toNat_ofNat] at hx'
  omega

/-! ## Reading and writing -/

/-- A byte at each offset. -/
abbrev Segment := BitVec 16 → UInt8

namespace Segment

variable {m m' : Segment} {bs cs : List UInt8}

/-- The word at `a`, low byte first. -/
def word (m : Segment) (a : BitVec 16) : BitVec 16 := join (m (a + 1)) (m a)

/-- `n` bytes from `a` on, in steps of `δ`. -/
def scan (m : Segment) (δ : BitVec 16) : BitVec 16 → ℕ → List UInt8
  | _, 0 => []
  | a, n + 1 => m a :: scan m δ (a + δ) n

/-- The `n` bytes from `a` on. -/
def bytes (m : Segment) (a : BitVec 16) (n : ℕ) : List UInt8 := m.scan 1 a n

/-- The bytes `bs` at `a`. -/
def write (m : Segment) (a : BitVec 16) (bs : List UInt8) : Segment :=
  fun x => (bs[(x - a).toNat]?).getD (m x)

@[simp] theorem write_nil (m : Segment) (a : BitVec 16) : m.write a [] = m := by
  funext x
  simp [write]

theorem write_of_notMem (h : x ∉ region a bs.length) : m.write a bs x = m x := by
  rw [mem_region, Nat.not_lt] at h
  rw [write, List.getElem?_eq_none h, Option.getD_none]

theorem write_of_disjoint {t : Set (BitVec 16)} (h : Disjoint (region a bs.length) t)
    (hx : x ∈ t) : m.write a bs x = m x :=
  write_of_notMem (Set.disjoint_right.mp h hx)

theorem write_add (m : Segment) (a : BitVec 16) (hi : i < bs.length) (hn : bs.length ≤ 2 ^ 16) :
    m.write a bs (a + BitVec.ofNat 16 i) = bs[i] := by
  rw [write, toNat_offset, Nat.mod_eq_of_lt (by omega), List.getElem?_eq_getElem hi,
    Option.getD_some]

/-- How far `x` is behind the end of the first `k` bytes from `a` on. -/
theorem toNat_sub_add (h : k < 2 ^ 16) : (x - (a + BitVec.ofNat 16 k)).toNat =
    if k ≤ (x - a).toNat then (x - a).toNat - k else 2 ^ 16 + (x - a).toNat - k := by
  have hsum : x - (a + BitVec.ofNat 16 k) = x - a - BitVec.ofNat 16 k := by ring
  have hlt := (x - a).isLt
  rw [hsum, BitVec.toNat_sub, BitVec.toNat_ofNat, Nat.mod_eq_of_lt h]
  split <;> omega

/-- **A write goes on where another one ended.** -/
theorem write_append (m : Segment) (a : BitVec 16) (h : bs.length + cs.length < 2 ^ 16) :
    (m.write a bs).write (a + BitVec.ofNat 16 bs.length) cs = m.write a (bs ++ cs) := by
  funext x
  have hlt := (x - a).isLt
  simp only [write, toNat_sub_add (show bs.length < 2 ^ 16 by omega)]
  split
  · next hge =>
    rw [List.getElem?_append_right hge, List.getElem?_eq_none hge, Option.getD_none]
  · next hge =>
    rw [List.getElem?_append_left (by omega), List.getElem?_eq_none (by omega), Option.getD_none]

/-- **A write ends where another one began.** -/
theorem write_prepend (m : Segment) (a : BitVec 16) (h : bs.length + cs.length < 2 ^ 16) :
    (m.write (a + BitVec.ofNat 16 bs.length) cs).write a bs = m.write a (bs ++ cs) := by
  funext x
  have hlt := (x - a).isLt
  simp only [write, toNat_sub_add (show bs.length < 2 ^ 16 by omega)]
  split
  · next hge =>
    rw [List.getElem?_append_right hge, List.getElem?_eq_none hge, Option.getD_none]
  · next hge =>
    have hin : (x - a).toNat < bs.length := by omega
    rw [List.getElem?_append_left hin, List.getElem?_eq_getElem hin, Option.getD_some,
      Option.getD_some]

/-- A word pushed below what has been pushed before. -/
theorem write_push (m : Segment) (a : BitVec 16) (h l : UInt8) (hcs : cs.length + 2 < 2 ^ 16) :
    (m.write a cs).write (a - 2#16) [l, h] = m.write (a - 2#16) (l :: h :: cs) := by
  have hback : a - 2#16 + BitVec.ofNat 16 [l, h].length = a := sub_add_cancel a 2#16
  have hfit : [l, h].length + cs.length < 2 ^ 16 := by
    rw [List.length_cons, List.length_singleton]
    omega
  calc (m.write a cs).write (a - 2#16) [l, h]
      = (m.write (a - 2#16 + BitVec.ofNat 16 [l, h].length) cs).write (a - 2#16) [l, h] := by
        rw [hback]
    _ = m.write (a - 2#16) (l :: h :: cs) := write_prepend m (a - 2#16) hfit

/-! ### Strings -/

theorem scan_eq_map (m : Segment) (δ a : BitVec 16) (n : ℕ) :
    m.scan δ a n = (List.range n).map fun i => m (a + BitVec.ofNat 16 i * δ) := by
  induction n generalizing a with
  | zero => rfl
  | succ n ih =>
    rw [scan, ih, List.range_succ_eq_map, List.map_cons, List.map_map]
    have hzero : a = a + BitVec.ofNat 16 0 * δ := by rw [BitVec.zero_mul, BitVec.add_zero]
    congr 1
    · rw [← hzero]
    · exact List.map_congr_left fun i _ => congrArg m (add_step a δ i)

@[simp] theorem length_scan (m : Segment) (δ a : BitVec 16) (n : ℕ) :
    (m.scan δ a n).length = n := by
  rw [scan_eq_map, List.length_map, List.length_range]

theorem scan_congr (h : ∀ i < n, m (a + BitVec.ofNat 16 i * δ) = m' (a + BitVec.ofNat 16 i * δ)) :
    m.scan δ a n = m'.scan δ a n := by
  rw [scan_eq_map, scan_eq_map]
  exact List.map_congr_left fun i hi => h i (List.mem_range.mp hi)

theorem bytes_eq_map (m : Segment) (a : BitVec 16) (n : ℕ) :
    m.bytes a n = (List.range n).map fun i => m (a + BitVec.ofNat 16 i) := by
  simp only [bytes, scan_eq_map, mul_one]

/-- What was written is read back. -/
theorem bytes_write (m : Segment) (a : BitVec 16) (h : bs.length ≤ 2 ^ 16) :
    (m.write a bs).bytes a bs.length = bs := by
  rw [bytes_eq_map]
  apply List.ext_getElem
  · simp
  · intro i hi _
    rw [List.length_map, List.length_range] at hi
    rw [List.getElem_map, List.getElem_range, write_add m a hi h]

/-- Read backwards from its last byte, a string comes out in reverse. -/
theorem scan_neg_one (m : Segment) (a : BitVec 16) (n : ℕ) :
    m.scan (-1) (a + BitVec.ofNat 16 n) (n + 1) = (m.bytes a (n + 1)).reverse := by
  rw [scan_eq_map, bytes_eq_map]
  apply List.ext_getElem
  · simp
  · intro i hi _
    rw [List.length_map, List.length_range] at hi
    simp only [List.getElem_map, List.getElem_range, List.getElem_reverse, List.length_map,
      List.length_range, Nat.add_sub_cancel]
    rw [step_back a (by omega)]

/-! ### Words -/

theorem word_write_of_disjoint (h : Disjoint (region a bs.length) (region b 2)) :
    (m.write a bs).word b = m.word b := by
  have h0 : b ∈ region b 2 := by simp [mem_region]
  have h1 : b + 1 ∈ region b 2 := add_mem_region b (by decide : 1 < 2)
  rw [word, word, write_of_disjoint h h0, write_of_disjoint h h1]

theorem word_write (m : Segment) (a : BitVec 16) (hi : i + 1 < bs.length)
    (hn : bs.length ≤ 2 ^ 16) :
    (m.write a bs).word (a + BitVec.ofNat 16 i) = join bs[i + 1] bs[i] := by
  have hsucc : a + BitVec.ofNat 16 i + 1 = a + BitVec.ofNat 16 (i + 1) := by
    rw [BitVec.ofNat_add, BitVec.add_assoc]
    rfl
  rw [word, hsucc, write_add m a hi hn, write_add m a (by omega) hn]

end Segment

end RaftConsensus
