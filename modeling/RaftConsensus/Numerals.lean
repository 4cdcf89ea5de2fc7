import RaftConsensus.Arguments

/-!
# Numbers that are printed and read again

Ids and ports go through text as decimal numbers: a leader is named in `NOT_LEADER leader=N` and
found again by `strtoull`, and the lists of servers on the command lines are read by `strtoull` and
`atoi`.  A number that fits is read as it was printed, whatever comes behind it that is no digit.
-/

namespace RaftConsensus

/-- A text is cut at the first mark. -/
theorem idxOf?_mark {mark : UInt8} {front : Bytes} (h : mark ∉ front) (rest : Bytes) :
    (front ++ mark :: rest).idxOf? mark = some front.length := by
  rw [List.idxOf?_eq_some_iff]
  refine ⟨by simp, by simp, fun i hi => ?_⟩
  rw [List.getElem_append_left hi]
  exact fun heq => h (heq ▸ List.getElem_mem hi)

/-! ## The digits of a number -/

/-- The digits are bytes. -/
theorem ascii_number (n : ℕ) :
    ascii (toString n) = (Nat.toDigits 10 n).map fun c => UInt8.ofNat c.toNat := by
  have hone : ∀ c ∈ Nat.toDigits 10 n, String.utf8EncodeChar c = [UInt8.ofNat c.toNat] := by
    intro c hc
    obtain ⟨-, hhigh⟩ := Char.isDigit_iff_toNat.mp
      (Nat.isDigit_of_mem_toDigits (by decide) (by decide) hc)
    have hle : c.val.toNat ≤ 127 := le_trans hhigh (by decide)
    rw [String.utf8EncodeChar_eq_singleton (if_pos (UInt32.le_iff_toNat_le.mpr hle))]
    rfl
  rw [ascii_eq_flatMap, Nat.toString_eq_ofList_toDigits, String.toList_ofList,
    ← List.flatMap_singleton' (List.map _ _), List.flatMap_map]
  exact List.flatMap_congr hone

/-- Nothing is read as a number before its first digit. -/
theorem ascii_number_ne_nil (n : ℕ) : ascii (toString n) ≠ [] := by
  rw [ascii_number]
  exact fun h => Nat.toDigits_ne_nil (List.map_eq_nil_iff.mp h)

/-- What the readers add up. -/
theorem foldl_ascii_number (n : ℕ) :
    (ascii (toString n)).foldl (fun n b => 10 * n + (b.toNat - 48)) 0 = n := by
  have hdigit : ∀ (acc : ℕ), ∀ c ∈ Nat.toDigits 10 n,
      10 * acc + ((UInt8.ofNat c.toNat).toNat - 48) = 10 * acc + (c.toNat - '0'.toNat) := by
    intro acc c hc
    obtain ⟨-, hhigh⟩ := Char.isDigit_iff_toNat.mp
      (Nat.isDigit_of_mem_toDigits (by decide) (by decide) hc)
    have hle : c.toNat ≤ 57 := hhigh
    rw [UInt8.toNat_ofNat_of_lt' (lt_of_le_of_lt hle (by decide))]
    rfl
  rw [ascii_number, List.foldl_map, List.foldl_ext _ _ 0 hdigit, ← Nat.ofDigitChars_eq_foldl,
    Nat.ofDigitChars_ten_toDigits]

/-- The digits end where something else begins. -/
theorem takeWhile_ascii_number (n : ℕ) {rest : Bytes}
    (hrest : ∀ b ∈ rest.head?, (48 ≤ b && b ≤ 57) = false) :
    (ascii (toString n) ++ rest).takeWhile (fun b => 48 ≤ b && b ≤ 57) = ascii (toString n) := by
  have hdigits : ∀ b ∈ ascii (toString n), (fun b : UInt8 => 48 ≤ b && b ≤ 57) b = true := by
    intro b hb
    obtain ⟨hlow, hhigh⟩ := digit_of_mem_ascii hb
    simp [hlow, hhigh]
  have hstop : rest.takeWhile (fun b => 48 ≤ b && b ≤ 57) = [] := by
    cases rest with
    | nil => rfl
    | cons b rest => exact List.takeWhile_cons_of_neg (by simp [hrest b (by simp)])
  rw [List.takeWhile_append_of_pos hdigits, hstop, List.append_nil]

/-- **A number begins with its first digit**: no blank is skipped, and there is no sign. -/
theorem exists_ascii_number (n : ℕ) (rest : Bytes) : ∃ d ds, ascii (toString n) ++ rest = d :: ds ∧
    isSpace d = false ∧ d ≠ 45 ∧ d ≠ 43 := by
  obtain ⟨d, ds, h⟩ := List.exists_cons_of_ne_nil (ascii_number_ne_nil n)
  obtain ⟨hlow, -⟩ := digit_of_mem_ascii (h ▸ List.mem_cons_self : d ∈ ascii (toString n))
  have hlow : 48 ≤ d.toNat := hlow
  have h13 : ¬ d ≤ 13 := fun hle => by
    have hle : d.toNat ≤ 13 := hle
    omega
  refine ⟨d, ds ++ rest, by rw [h, List.cons_append], ?_, ?_, ?_⟩
  · have h32 : d ≠ 32 := by
      rintro rfl
      exact absurd hlow (by decide)
    simp [isSpace, h32, h13]
  · rintro rfl
    exact absurd hlow (by decide)
  · rintro rfl
    exact absurd hlow (by decide)

/-! ## Reading it -/

variable {n : ℕ} {rest : Bytes}

/-- **`strtoull` reads what was printed**, if it fits. -/
theorem strtoull_number (hn : n < 2 ^ 64) (hrest : ∀ b ∈ rest.head?, (48 ≤ b && b ≤ 57) = false) :
    strtoull (ascii (toString n) ++ rest) = n := by
  obtain ⟨d, ds, hd, hblank, hminus, hplus⟩ := exists_ascii_number n rest
  have hskip : (ascii (toString n) ++ rest).dropWhile (fun b => b = 32 || (9 ≤ b && b ≤ 13)) =
      d :: ds := by
    rw [hd]
    exact List.dropWhile_cons_of_neg (Bool.eq_false_iff.mp hblank)
  have htake := takeWhile_ascii_number n hrest
  rw [hd] at htake
  rw [strtoull, hskip]
  dsimp only
  split
  · next hcons => exact absurd (List.cons.inj hcons).1 hminus
  · next hcons => exact absurd (List.cons.inj hcons).1 hplus
  · rw [htake, foldl_ascii_number, if_neg (Nat.not_le.mpr hn), if_neg (by simp)]

/-- `strtol` reads what was printed, if it fits. -/
theorem strtol_number (hn : n < 2 ^ 63) (hrest : ∀ b ∈ rest.head?, (48 ≤ b && b ≤ 57) = false) :
    strtol (ascii (toString n) ++ rest) = n := by
  obtain ⟨d, ds, hd, hblank, hminus, hplus⟩ := exists_ascii_number n rest
  have hskip : (ascii (toString n) ++ rest).dropWhile isSpace = d :: ds := by
    rw [hd]
    exact List.dropWhile_cons_of_neg (Bool.eq_false_iff.mp hblank)
  have htake := takeWhile_ascii_number n hrest
  rw [hd] at htake
  rw [strtol, hskip]
  dsimp only
  split
  · next hcons => exact absurd (List.cons.inj hcons).1 hminus
  · next hcons => exact absurd (List.cons.inj hcons).1 hplus
  · rw [htake, foldl_ascii_number, if_neg (by simp)]
    omega

/-- **`atoi` reads what was printed**, if it is an `int`. -/
theorem atoi_number (hn : n < 2 ^ 31) (hrest : ∀ b ∈ rest.head?, (48 ≤ b && b ≤ 57) = false) :
    atoi (ascii (toString n) ++ rest) = n := by
  rw [atoi, strtol_number (by omega) hrest]
  exact Int.bmod_eq_of_le (by omega) (by omega)

/-! ## A text that is a number -/

theorem strtoull_ascii (hn : n < 2 ^ 64) : strtoull (ascii (toString n)) = n := by
  have h : strtoull (ascii (toString n) ++ []) = n := strtoull_number hn (by simp)
  rwa [List.append_nil] at h

theorem atoi_ascii (hn : n < 2 ^ 31) : atoi (ascii (toString n)) = n := by
  have h : atoi (ascii (toString n) ++ []) = n := atoi_number hn (by simp)
  rwa [List.append_nil] at h

end RaftConsensus
