import Mathlib.Data.List.Basic
import Mathlib.Data.Nat.Bitwise
import Mathlib.Logic.Function.Iterate

/-!
# Shift registers with feedback

A register of `w` bits is shifted down, and when a bit drops out at its lower end the bits of a
polynomial are added.  A checksum of the CRC family feeds a message into such a register, a
symbol of `n` bits at a time.

The register is linear over the field of two elements (`shift_xor`) and, if the polynomial has
its highest bit, loses nothing (`shift_injective`).  Feeding no more symbols than there is
room for in the register is the same as adding them in at once and shifting (`feed_eq`).
Together: two messages that differ only in a stretch that fits into the register leave it
in different states (`feed_burst`).
-/

namespace RaftConsensus
namespace ShiftRegister

variable {w : ℕ} (poly : BitVec w)

/-- One shift. -/
def shift (c : BitVec w) : BitVec w := if c.getLsbD 0 then (c >>> 1) ^^^ poly else c >>> 1

/-- `n` shifts. -/
def shifts (n : ℕ) : BitVec w → BitVec w := (shift poly)^[n]

/-- Add a symbol and shift it out, for each symbol of a message. -/
def feed (n : ℕ) (c : BitVec w) (xs : List (BitVec w)) : BitVec w :=
  xs.foldl (fun c x => shifts poly n (c ^^^ x)) c

variable {poly}

/-! ## Linearity -/

theorem shift_xor (a b : BitVec w) : shift poly (a ^^^ b) = shift poly a ^^^ shift poly b := by
  have hcancel : ∀ x y : BitVec w, x ^^^ poly ^^^ (y ^^^ poly) = x ^^^ y := by
    intro x y
    rw [BitVec.xor_assoc, BitVec.xor_comm y, ← BitVec.xor_assoc poly, BitVec.xor_self,
      BitVec.zero_xor]
  unfold shift
  rw [BitVec.getLsbD_xor, BitVec.ushiftRight_xor_distrib]
  cases a.getLsbD 0 <;> cases b.getLsbD 0
  case false.false => rfl
  case false.true => exact BitVec.xor_assoc _ _ _
  case true.false => exact (BitVec.xor_assoc _ _ _).trans (by
    rw [BitVec.xor_comm (b >>> 1), ← BitVec.xor_assoc]; rfl)
  case true.true => exact (hcancel _ _).symm

theorem shifts_succ (n : ℕ) (c : BitVec w) :
    shifts poly (n + 1) c = shifts poly n (shift poly c) := rfl

theorem shifts_add (m n : ℕ) (c : BitVec w) :
    shifts poly (m + n) c = shifts poly m (shifts poly n c) := Function.iterate_add_apply _ _ _ _

theorem shifts_xor (n : ℕ) (a b : BitVec w) :
    shifts poly n (a ^^^ b) = shifts poly n a ^^^ shifts poly n b := by
  induction n generalizing a b with
  | zero => rfl
  | succ n ih => rw [shifts_succ, shift_xor, ih, ← shifts_succ, ← shifts_succ]

/-! ## Nothing is lost -/

/-- A shift brings only zero to zero. -/
theorem eq_zero_of_shift (hpoly : poly.msb = true) {c : BitVec w} (h : shift poly c = 0#w) :
    c = 0#w := by
  have hw : 0 < w := by
    rcases Nat.eq_zero_or_pos w with rfl | hw
    · exact absurd hpoly (by simp [BitVec.of_length_zero])
    · exact hw
  unfold shift at h
  split at h
  · -- the highest bit of the polynomial cannot be cancelled
    have hmsb := congrArg BitVec.msb (BitVec.xor_eq_zero_iff.mp h)
    rw [hpoly, BitVec.msb_ushiftRight] at hmsb
    exact absurd hmsb (by simp)
  · next hlow =>
    apply BitVec.eq_of_getLsbD_eq
    intro i hi
    rw [BitVec.getLsbD_zero]
    cases i with
    | zero => exact Bool.eq_false_iff.mpr hlow
    | succ i =>
      have hbit := congrArg (fun x : BitVec w => x.getLsbD i) h
      simp only [BitVec.getLsbD_ushiftRight, BitVec.getLsbD_zero] at hbit
      rwa [Nat.add_comm] at hbit

theorem shift_injective (hpoly : poly.msb = true) : Function.Injective (shift poly) := by
  intro a b h
  have hzero : shift poly (a ^^^ b) = 0#w := by rw [shift_xor, h, BitVec.xor_self]
  exact BitVec.xor_eq_zero_iff.mp (eq_zero_of_shift hpoly hzero)

theorem shifts_injective (hpoly : poly.msb = true) (n : ℕ) : Function.Injective (shifts poly n) :=
  (shift_injective hpoly).iterate n

theorem feed_injective (hpoly : poly.msb = true) {n : ℕ} {c c' : BitVec w} {xs : List (BitVec w)}
    (h : feed poly n c xs = feed poly n c' xs) : c = c' := by
  induction xs generalizing c c' with
  | nil => exact h
  | cons x xs ih =>
    have hstep : c ^^^ x = c' ^^^ x := shifts_injective hpoly n (ih h)
    exact (BitVec.xor_left_inj x).mp hstep

/-! ## Room in the register -/

theorem getLsbD_of_lt {x : BitVec w} {n i : ℕ} (hx : x.toNat < 2 ^ n) (hi : n ≤ i) :
    x.getLsbD i = false := by
  rw [← BitVec.testBit_toNat]
  exact Nat.testBit_lt_two_pow (hx.trans_le (Nat.pow_le_pow_right (by decide) hi))

theorem getLsbD_shiftLeft_add (x : BitVec w) {n i : ℕ} (h : i + n < w) :
    (x <<< n).getLsbD (i + n) = x.getLsbD i := by
  rw [BitVec.getLsbD_shiftLeft, Nat.add_sub_cancel, decide_eq_true h,
    decide_eq_false (show ¬ i + n < n by omega)]
  rfl

theorem shift_shiftLeft {x : BitVec w} (hx : x.toNat < 2 ^ (w - 1)) : shift poly (x <<< 1) = x := by
  unfold shift
  have hlow : (x <<< 1).getLsbD 0 = false := by simp
  rw [hlow, if_neg (by decide)]
  apply BitVec.eq_of_getLsbD_eq
  intro i hi
  rw [BitVec.getLsbD_ushiftRight, BitVec.getLsbD_shiftLeft]
  by_cases hlast : 1 + i < w
  · simp [hlast]
  · simp [hlast, getLsbD_of_lt hx (show w - 1 ≤ i by omega)]

/-- What stands in the upper part of the register is brought down unchanged. -/
theorem shifts_shiftLeft {n : ℕ} (hn : n ≤ w) {x : BitVec w} (hx : x.toNat < 2 ^ (w - n)) :
    shifts poly n (x <<< n) = x := by
  induction n with
  | zero => rw [BitVec.shiftLeft_zero]; rfl
  | succ n ih =>
    have hx' : x.toNat < 2 ^ (w - n) :=
      hx.trans_le (Nat.pow_le_pow_right (by decide) (by omega))
    have hroom : (x <<< n).toNat < 2 ^ (w - 1) := by
      calc (x <<< n).toNat ≤ x.toNat * 2 ^ n := by
            rw [BitVec.toNat_shiftLeft, Nat.shiftLeft_eq]
            exact Nat.mod_le _ _
        _ < 2 ^ (w - (n + 1)) * 2 ^ n := Nat.mul_lt_mul_of_pos_right hx (Nat.two_pow_pos n)
        _ = 2 ^ (w - 1) := by rw [← Nat.pow_add]; congr 1; omega
    rw [shifts_succ, BitVec.shiftLeft_add, shift_shiftLeft hroom, ih (by omega) hx']

/-- **The table method**: the lower bits of the register are looked up, the upper ones come down. -/
theorem shifts_eq {n : ℕ} (hn : n ≤ w) (c : BitVec w) :
    shifts poly n c = (c >>> n) ^^^ shifts poly n (c &&& BitVec.ofNat w (2 ^ n - 1)) := by
  have hsplit : c = ((c >>> n) <<< n) ^^^ (c &&& BitVec.ofNat w (2 ^ n - 1)) := by
    apply BitVec.eq_of_getLsbD_eq
    intro i hi
    rw [BitVec.getLsbD_xor, BitVec.getLsbD_shiftLeft, BitVec.getLsbD_ushiftRight,
      BitVec.getLsbD_and, BitVec.getLsbD_ofNat, Nat.testBit_two_pow_sub_one]
    by_cases hlow : i < n
    · simp [hi, hlow]
    · simp [hi, hlow, show n + (i - n) = i by omega]
  have hroom : (c >>> n).toNat < 2 ^ (w - n) := by
    rw [BitVec.toNat_ushiftRight, Nat.shiftRight_eq_div_pow, Nat.div_lt_iff_lt_mul (Nat.two_pow_pos n),
      ← Nat.pow_add, Nat.sub_add_cancel hn]
    exact c.isLt
  conv_lhs => rw [hsplit, shifts_xor, shifts_shiftLeft hn hroom]

/-! ## Short messages -/

/-- The symbols of a message side by side, the first one lowest. -/
def pack (n : ℕ) : List (BitVec w) → BitVec w
  | [] => 0#w
  | x :: xs => x ^^^ (pack n xs <<< n)

theorem pack_lt {n : ℕ} {xs : List (BitVec w)} (hxs : ∀ x ∈ xs, x.toNat < 2 ^ n) :
    (pack n xs).toNat < 2 ^ (n * xs.length) := by
  induction xs with
  | nil => simp [pack]
  | cons x xs ih =>
    have htail := ih fun y hy => hxs y (List.mem_cons_of_mem x hy)
    have hexp : n * (x :: xs).length = n * xs.length + n := Nat.mul_succ _ _
    rw [pack, BitVec.toNat_xor, hexp]
    refine Nat.xor_lt_two_pow ?_ ?_
    · exact (hxs x List.mem_cons_self).trans_le (Nat.pow_le_pow_right (by decide) (by omega))
    · calc (pack n xs <<< n).toNat ≤ (pack n xs).toNat * 2 ^ n := by
            rw [BitVec.toNat_shiftLeft, Nat.shiftLeft_eq]
            exact Nat.mod_le _ _
        _ < 2 ^ (n * xs.length) * 2 ^ n := Nat.mul_lt_mul_of_pos_right htail (Nat.two_pow_pos n)
        _ = 2 ^ (n * xs.length + n) := (Nat.pow_add _ _ _).symm

/-- A message that fits can be read off the packed form. -/
theorem pack_injective {n : ℕ} {xs ys : List (BitVec w)} (hxs : ∀ x ∈ xs, x.toNat < 2 ^ n)
    (hys : ∀ y ∈ ys, y.toNat < 2 ^ n) (hlen : xs.length = ys.length) (hfit : n * xs.length ≤ w)
    (h : pack n xs = pack n ys) : xs = ys := by
  induction xs generalizing ys with
  | nil => exact (List.length_eq_zero_iff.mp hlen.symm).symm
  | cons x xs ih =>
    cases ys with
    | nil => exact absurd hlen (by simp)
    | cons y ys =>
      rw [List.length_cons, List.length_cons, Nat.add_right_cancel_iff] at hlen
      have hexp : n * (x :: xs).length = n * xs.length + n := Nat.mul_succ _ _
      rw [hexp] at hfit
      have hxs' := fun z hz => hxs z (List.mem_cons_of_mem x hz)
      have hys' := fun z hz => hys z (List.mem_cons_of_mem y hz)
      have hbit : ∀ i, (x.getLsbD i ^^ (pack n xs <<< n).getLsbD i) =
          (y.getLsbD i ^^ (pack n ys <<< n).getLsbD i) := by
        intro i
        rw [← BitVec.getLsbD_xor, ← BitVec.getLsbD_xor]
        exact congrArg (fun z : BitVec w => z.getLsbD i) h
      have hx := hxs x List.mem_cons_self
      have hy := hys y List.mem_cons_self
      have hhead : x = y := by
        apply BitVec.eq_of_getLsbD_eq
        intro i hi
        by_cases hlow : i < n
        · have := hbit i
          simpa [BitVec.getLsbD_shiftLeft, hi, hlow] using this
        · rw [getLsbD_of_lt hx (by omega), getLsbD_of_lt hy (by omega)]
      have htail : pack n xs = pack n ys := by
        apply BitVec.eq_of_getLsbD_eq
        intro i hi
        by_cases hroom : i + n < w
        · have := hbit (i + n)
          rwa [getLsbD_of_lt hx (by omega), getLsbD_of_lt hy (by omega), Bool.false_xor,
            Bool.false_xor, getLsbD_shiftLeft_add _ hroom, getLsbD_shiftLeft_add _ hroom] at this
        · have hpx := pack_lt hxs'
          have hpy := pack_lt hys'
          rw [← hlen] at hpy
          rw [getLsbD_of_lt hpx (by omega), getLsbD_of_lt hpy (by omega)]
      rw [hhead, ih hxs' hys' hlen (by omega) htail]

/-- **A message that fits into the register** can be added at once. -/
theorem feed_eq {n : ℕ} {xs : List (BitVec w)} (hxs : ∀ x ∈ xs, x.toNat < 2 ^ n)
    (hfit : n * xs.length ≤ w) (c : BitVec w) :
    feed poly n c xs = shifts poly (n * xs.length) (c ^^^ pack n xs) := by
  induction xs generalizing c with
  | nil => simp [feed, pack, shifts]
  | cons x xs ih =>
    have hexp : n * (x :: xs).length = n * xs.length + n := Nat.mul_succ _ _
    rw [hexp] at hfit
    have hxs' := fun z hz => hxs z (List.mem_cons_of_mem x hz)
    have hroom : (pack n xs).toNat < 2 ^ (w - n) :=
      (pack_lt hxs').trans_le (Nat.pow_le_pow_right (by decide) (by omega))
    have hup : shifts poly n (pack n xs <<< n) = pack n xs := shifts_shiftLeft (by omega) hroom
    calc feed poly n c (x :: xs) = feed poly n (shifts poly n (c ^^^ x)) xs := rfl
      _ = shifts poly (n * xs.length) (shifts poly n (c ^^^ x) ^^^ pack n xs) :=
          ih hxs' (by omega) _
      _ = shifts poly (n * xs.length) (shifts poly n (c ^^^ x ^^^ (pack n xs <<< n))) := by
          rw [shifts_xor n (c ^^^ x), hup]
      _ = shifts poly (n * (x :: xs).length) (c ^^^ pack n (x :: xs)) := by
          rw [← shifts_add, ← hexp, pack, BitVec.xor_assoc]

/-- **A short burst shows**: messages that differ only in a stretch that fits into the register leave
it in different states. -/
theorem feed_burst (hpoly : poly.msb = true) {n : ℕ} {c : BitVec w} {a m m' b : List (BitVec w)}
    (hm : ∀ x ∈ m, x.toNat < 2 ^ n) (hm' : ∀ x ∈ m', x.toNat < 2 ^ n)
    (hlen : m.length = m'.length) (hfit : n * m.length ≤ w)
    (h : feed poly n c (a ++ (m ++ b)) = feed poly n c (a ++ (m' ++ b))) : m = m' := by
  simp only [feed, List.foldl_append] at h
  have hmid := feed_injective (n := n) hpoly h
  have hfed : feed poly n (feed poly n c a) m = feed poly n (feed poly n c a) m' := hmid
  rw [feed_eq hm hfit, feed_eq hm' (hlen ▸ hfit), ← hlen] at hfed
  have hpack := (BitVec.xor_right_inj _).mp (shifts_injective hpoly _ hfed)
  exact pack_injective hm hm' hlen hfit hpack

end ShiftRegister
end RaftConsensus
