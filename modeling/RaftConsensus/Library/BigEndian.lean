import Mathlib.Data.List.Basic
import Mathlib.Tactic.Ring

/-!
# Fixed-width big-endian numbers in byte strings

`bigEndian w v` is the `w` bytes of `v`, most significant first; of a number that needs
more than `w` bytes only the low ones are kept.  `ofBigEndian` reads bytes back, and
`readBigEndian` reads them at a position of a longer string, with `none` for a read that
would leave the string.
-/

namespace RaftConsensus

/-- Strings of the modelled program are sequences of bytes. -/
abbrev Bytes := List UInt8

/-- The `w` low bytes of `v`, most significant first. -/
def bigEndian : ℕ → ℕ → Bytes
  | 0, _ => []
  | w + 1, v => UInt8.ofNat (v / 256 ^ w) :: bigEndian w v

/-- The number whose bytes are `bs`, most significant first. -/
def ofBigEndian (bs : Bytes) : ℕ := bs.foldl (fun acc b => acc * 256 + b.toNat) 0

/-- The bytes `i, …, j - 1` of `data`, if the range lies inside. -/
def slice (data : Bytes) (i j : ℕ) : Option Bytes :=
  if i ≤ j ∧ j ≤ data.length then some ((data.drop i).take (j - i)) else none

/-- The `w`-byte number at position `pos`, if it lies inside. -/
def readBigEndian (data : Bytes) (pos w : ℕ) : Option ℕ :=
  (slice data pos (pos + w)).map ofBigEndian

@[simp] theorem length_bigEndian (w v : ℕ) : (bigEndian w v).length = w := by
  induction w with
  | zero => rfl
  | succ w ih => rw [bigEndian, List.length_cons, ih]

theorem foldl_ofBigEndian (bs : Bytes) (acc : ℕ) :
    bs.foldl (fun acc b => acc * 256 + b.toNat) acc = acc * 256 ^ bs.length + ofBigEndian bs := by
  induction bs generalizing acc with
  | nil => simp [ofBigEndian]
  | cons b bs ih =>
    rw [List.foldl_cons, ih, List.length_cons]
    conv_rhs => rw [ofBigEndian, List.foldl_cons, ih]
    ring

theorem ofBigEndian_cons (b : UInt8) (bs : Bytes) :
    ofBigEndian (b :: bs) = b.toNat * 256 ^ bs.length + ofBigEndian bs := by
  rw [ofBigEndian, List.foldl_cons, foldl_ofBigEndian]
  simp

/-- Reading back what was written keeps the low `w` bytes. -/
theorem ofBigEndian_bigEndian (w v : ℕ) : ofBigEndian (bigEndian w v) = v % 256 ^ w := by
  induction w with
  | zero => simp [bigEndian, ofBigEndian, Nat.mod_one]
  | succ w ih =>
    have hbyte : (UInt8.ofNat (v / 256 ^ w)).toNat = v / 256 ^ w % 256 := by simp
    rw [bigEndian, ofBigEndian_cons, ih, length_bigEndian, hbyte, Nat.pow_succ, Nat.mod_mul,
      Nat.mul_comm, Nat.add_comm]

theorem ofBigEndian_bigEndian_of_lt {w v : ℕ} (h : v < 256 ^ w) :
    ofBigEndian (bigEndian w v) = v := by
  rw [ofBigEndian_bigEndian, Nat.mod_eq_of_lt h]

/-- A number of `w` bytes is below `256 ^ w`. -/
theorem ofBigEndian_lt (bs : Bytes) : ofBigEndian bs < 256 ^ bs.length := by
  induction bs with
  | nil => simp [ofBigEndian]
  | cons b bs ih =>
    have hb : b.toNat < 256 := b.toNat_lt
    calc ofBigEndian (b :: bs) = b.toNat * 256 ^ bs.length + ofBigEndian bs :=
          ofBigEndian_cons b bs
      _ < b.toNat * 256 ^ bs.length + 256 ^ bs.length := by omega
      _ = (b.toNat + 1) * 256 ^ bs.length := by ring
      _ ≤ 256 * 256 ^ bs.length := Nat.mul_le_mul_right _ hb
      _ = 256 ^ (b :: bs).length := by rw [List.length_cons, Nat.pow_succ, Nat.mul_comm]

theorem slice_append_right (pre mid post : Bytes) {i j : ℕ} (hi : i = pre.length)
    (hj : j = pre.length + mid.length) : slice (pre ++ (mid ++ post)) i j = some mid := by
  subst hi hj
  unfold slice
  rw [if_pos ⟨by omega, by simp⟩, List.drop_left, Nat.add_sub_cancel_left, List.take_left]

theorem readBigEndian_append_right (pre mid post : Bytes) {i w : ℕ} (hi : i = pre.length)
    (hw : w = mid.length) :
    readBigEndian (pre ++ (mid ++ post)) i w = some (ofBigEndian mid) := by
  rw [readBigEndian, slice_append_right pre mid post hi (by rw [hi, hw])]
  rfl

/-- Only the low bytes are written. -/
theorem bigEndian_add_mul (w a v : ℕ) : bigEndian w (a * 256 ^ w + v) = bigEndian w v := by
  induction w generalizing a with
  | zero => rfl
  | succ w ih =>
    have hsplit : a * 256 ^ (w + 1) + v = a * 256 * 256 ^ w + v := by ring
    have hhigh : (a * 256 * 256 ^ w + v) / 256 ^ w = a * 256 + v / 256 ^ w := by
      rw [Nat.mul_comm, Nat.mul_add_div (Nat.pow_pos (by decide))]
    have hbyte : UInt8.ofNat (a * 256 + v / 256 ^ w) = UInt8.ofNat (v / 256 ^ w) := by
      apply UInt8.toNat_inj.mp
      simp
    rw [bigEndian, bigEndian, hsplit, ih, hhigh, hbyte]

/-- **Writing back what was read** gives the bytes. -/
theorem bigEndian_ofBigEndian (bs : Bytes) : bigEndian bs.length (ofBigEndian bs) = bs := by
  induction bs with
  | nil => rfl
  | cons b bs ih =>
    have hhigh : (b.toNat * 256 ^ bs.length + ofBigEndian bs) / 256 ^ bs.length = b.toNat := by
      rw [Nat.mul_comm, Nat.mul_add_div (Nat.pow_pos (by decide)),
        Nat.div_eq_of_lt (ofBigEndian_lt bs), Nat.add_zero]
    rw [List.length_cons, bigEndian, ofBigEndian_cons, hhigh, bigEndian_add_mul, ih,
      UInt8.ofNat_toNat]

/-- What a slice holds stands behind what is before it. -/
theorem take_of_slice {data x : Bytes} {i j : ℕ} (h : slice data i j = some x) :
    data.take j = data.take i ++ x := by
  unfold slice at h
  split at h
  · next hij =>
    rw [← Option.some.inj h, ← List.take_add, Nat.add_sub_cancel' hij.1]
  · exact absurd h (by simp)

theorem take_of_readBigEndian {data : Bytes} {pos w v : ℕ} (h : readBigEndian data pos w = some v) :
    data.take (pos + w) = data.take pos ++ bigEndian w v := by
  obtain ⟨mid, hmid, rfl⟩ := Option.map_eq_some_iff.mp h
  have hlen : mid.length = w := by
    unfold slice at hmid
    split at hmid
    · rw [← Option.some.inj hmid, List.length_take, List.length_drop]
      omega
    · exact absurd hmid (by simp)
  rw [take_of_slice hmid]
  conv_rhs => rw [← hlen, bigEndian_ofBigEndian]

end RaftConsensus
