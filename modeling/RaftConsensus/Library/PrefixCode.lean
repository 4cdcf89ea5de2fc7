import Mathlib.Data.List.Basic
import Mathlib.Data.List.Infix

/-!
# Prefix codes and longest runs of code words

Records that stand one behind the other in a string can be told apart when no word of the
code is a prefix of another one.  A string that somebody may have damaged still has a
*longest run* of words at its start: after it no further word follows.

The longest run exists (`exists_isLongest`), there is only one (`IsLongest.unique`), every run
is a part of it (`IsRun.isPrefix_of_longest`), and it only grows when the string does (`IsLongest.mono`).
What a decoder should return on a damaged string is therefore settled before there is a
decoder.

`terminated` is the code of strings with an end mark, such as the lines of a text.
-/

namespace RaftConsensus

/-- A code: some values have words, and a string begins with one word at most. -/
structure PrefixCode (α β : Type*) where
  Valid : α → Prop
  word : α → List β
  word_ne_nil : ∀ {a}, Valid a → word a ≠ []
  word_unique : ∀ {a b l}, Valid a → Valid b → word a <+: l → word b <+: l → a = b

namespace PrefixCode

variable {α β : Type*} (C : PrefixCode α β)

/-- Words one behind the other. -/
def encode (as : List α) : List β := as.flatMap C.word

@[simp] theorem encode_nil : C.encode [] = [] := rfl

theorem encode_cons (a : α) (as : List α) : C.encode (a :: as) = C.word a ++ C.encode as := rfl

@[simp] theorem encode_append (as bs : List α) :
    C.encode (as ++ bs) = C.encode as ++ C.encode bs := List.flatMap_append

theorem encode_singleton (a : α) : C.encode [a] = C.word a := by
  rw [encode_cons, encode_nil, List.append_nil]

/-- The string begins with the words of the list. -/
structure IsRun (as : List α) (l : List β) : Prop where
  valid : ∀ a ∈ as, C.Valid a
  isPrefix : C.encode as <+: l

/-- No further word follows. -/
structure IsLongest (as : List α) (l : List β) : Prop extends C.IsRun as l where
  stuck : ∀ a, C.Valid a → ¬ C.encode (as ++ [a]) <+: l

variable {C} {as bs : List α} {l l' rest : List β} {a : α}

theorem IsRun.mono (h : C.IsRun as l) (hl : l <+: l') : C.IsRun as l' := ⟨h.valid, h.isPrefix.trans hl⟩

/-- The longest run, by what stands behind it. -/
theorem isLongest_append :
    C.IsLongest as (C.encode as ++ rest) ↔
      (∀ a ∈ as, C.Valid a) ∧ ∀ a, C.Valid a → ¬ C.word a <+: rest := by
  have hword : ∀ a, C.encode (as ++ [a]) <+: C.encode as ++ rest ↔ C.word a <+: rest := by
    intro a
    rw [encode_append, encode_singleton, List.prefix_append_right_inj]
  constructor
  · intro h
    exact ⟨h.valid, fun a ha => (hword a).not.mp (h.stuck a ha)⟩
  · rintro ⟨hvalid, hstuck⟩
    exact ⟨⟨hvalid, List.prefix_append _ _⟩, fun a ha => (hword a).not.mpr (hstuck a ha)⟩

/-- Words with nothing behind them. -/
theorem isLongest_encode (h : ∀ a ∈ as, C.Valid a) : C.IsLongest as (C.encode as) := by
  have hnil : ∀ a, C.Valid a → ¬ C.word a <+: [] := by
    intro a ha hpre
    exact C.word_ne_nil ha (List.prefix_nil.mp hpre)
  have := isLongest_append.mpr ⟨h, hnil⟩
  rwa [List.append_nil] at this

/-- A word more at the front. -/
theorem isLongest_cons (ha : C.Valid a) :
    C.IsLongest (a :: as) (C.word a ++ rest) ↔ C.IsLongest as rest := by
  have hpre : ∀ bs : List α, C.encode (a :: bs) <+: C.word a ++ rest ↔ C.encode bs <+: rest := by
    intro bs
    rw [encode_cons, List.prefix_append_right_inj]
  constructor
  · intro h
    refine ⟨⟨fun b hb => h.valid b (List.mem_cons_of_mem a hb), (hpre as).mp h.isPrefix⟩, ?_⟩
    intro b hb
    exact (hpre (as ++ [b])).not.mp (h.stuck b hb)
  · intro h
    refine ⟨⟨fun b hb => ?_, (hpre as).mpr h.isPrefix⟩, ?_⟩
    · rcases List.mem_cons.mp hb with rfl | hb
      · exact ha
      · exact h.valid b hb
    · intro b hb
      exact (hpre (as ++ [b])).not.mpr (h.stuck b hb)

/-- Any words more at the front. -/
theorem isLongest_encode_append (has : ∀ a ∈ as, C.Valid a) :
    C.IsLongest (as ++ bs) (C.encode as ++ l) ↔ C.IsLongest bs l := by
  induction as with
  | nil => rfl
  | cons a as ih =>
    rw [List.cons_append, encode_cons, List.append_assoc,
      isLongest_cons (has a List.mem_cons_self),
      ih fun b hb => has b (List.mem_cons_of_mem a hb)]

/-- **Every run is a part of the longest one.** -/
theorem IsRun.isPrefix_of_longest (h : C.IsRun as l) (h' : C.IsLongest bs l) : as <+: bs := by
  induction as generalizing bs l with
  | nil => exact List.nil_prefix
  | cons a as ih =>
    have ha : C.Valid a := h.valid a List.mem_cons_self
    have hword : C.word a <+: l := (List.prefix_append _ _).trans h.isPrefix
    cases bs with
    | nil => exact absurd (by rwa [List.nil_append, encode_singleton]) (h'.stuck a ha)
    | cons b bs =>
      have hb : C.Valid b := h'.valid b List.mem_cons_self
      obtain rfl : a = b :=
        C.word_unique ha hb hword ((List.prefix_append _ _).trans h'.isPrefix)
      obtain ⟨rest, rfl⟩ := hword
      have hrun : C.IsRun as rest :=
        ⟨fun c hc => h.valid c (List.mem_cons_of_mem a hc),
          (List.prefix_append_right_inj _).mp h.isPrefix⟩
      exact List.cons_prefix_cons.mpr ⟨rfl, ih hrun ((isLongest_cons ha).mp h')⟩

/-- **There is only one.** -/
theorem IsLongest.unique (h : C.IsLongest as l) (h' : C.IsLongest bs l) : as = bs :=
  (h.toIsRun.isPrefix_of_longest h').eq_of_length_le (h'.toIsRun.isPrefix_of_longest h).length_le

/-- The longest run only grows with the string. -/
theorem IsLongest.mono (h : C.IsLongest as l) (hl : l <+: l') (h' : C.IsLongest bs l') : as <+: bs :=
  (h.toIsRun.mono hl).isPrefix_of_longest h'

variable (C) in
/-- **Every string has a longest run.** -/
theorem exists_isLongest (l : List β) : ∃ as, C.IsLongest as l := by
  induction hn : l.length using Nat.strong_induction_on generalizing l with
  | h n ih =>
    by_cases hex : ∃ a, C.Valid a ∧ C.word a <+: l
    · obtain ⟨a, ha, rest, rfl⟩ := hex
      have hpos : 0 < (C.word a).length := List.length_pos_iff.mpr (C.word_ne_nil ha)
      rw [List.length_append] at hn
      obtain ⟨as, has⟩ := ih rest.length (by omega) rest rfl
      exact ⟨a :: as, (isLongest_cons ha).mpr has⟩
    · have hnone : ∀ a, C.Valid a → ¬ C.word a <+: l := fun a ha hpre => hex ⟨a, ha, hpre⟩
      exact ⟨[], isLongest_append.mpr ⟨by simp, hnone⟩⟩

/-- A string is its longest run, and a rest that does not begin with a word. -/
theorem IsLongest.exists_rest (h : C.IsLongest as l) :
    ∃ rest, l = C.encode as ++ rest ∧ ∀ a, C.Valid a → ¬ C.word a <+: rest := by
  obtain ⟨rest, rfl⟩ := h.isPrefix
  exact ⟨rest, rfl, (isLongest_append.mp h).2⟩

/-! ## Records with an end mark -/

/-- **Lists of words are told apart.** -/
theorem encode_inj (has : ∀ a ∈ as, C.Valid a) (hbs : ∀ b ∈ bs, C.Valid b) :
    C.encode as = C.encode bs ↔ as = bs := by
  constructor
  · intro h
    have hlongest := isLongest_encode hbs
    rw [← h] at hlongest
    exact (isLongest_encode has).unique hlongest
  · rintro rfl
    rfl

/-- **A mark can be read in more than one place** if it may occur in the two parts that it
separates. -/
theorem append_mark_eq_iff {k v k' v' : List β} {mark : β} :
    k ++ mark :: v = k' ++ mark :: v' ↔
      (k = k' ∧ v = v') ∨ (∃ r, k' = k ++ mark :: r ∧ v = r ++ mark :: v') ∨
        ∃ r, k = k' ++ mark :: r ∧ v' = r ++ mark :: v := by
  constructor
  · intro h
    rcases List.append_eq_append_iff.mp h with ⟨c, hk, hv⟩ | ⟨c, hk, hv⟩
    · cases c with
      | nil =>
        rw [List.append_nil] at hk
        exact Or.inl ⟨hk.symm, (List.cons.inj hv).2⟩
      | cons x r =>
        obtain ⟨rfl, htail⟩ := List.cons.inj hv
        exact Or.inr (Or.inl ⟨r, hk, htail⟩)
    · cases c with
      | nil =>
        rw [List.append_nil] at hk
        exact Or.inl ⟨hk, (List.cons.inj hv).2.symm⟩
      | cons x r =>
        obtain ⟨rfl, htail⟩ := List.cons.inj hv
        exact Or.inr (Or.inr ⟨r, hk, htail⟩)
  · rintro (⟨rfl, rfl⟩ | ⟨r, rfl, rfl⟩ | ⟨r, rfl, rfl⟩)
    · rfl
    · simp
    · simp

/-- Strings that end with a mark that does not occur in them otherwise. -/
def terminated (mark : β) : PrefixCode (List β) β where
  Valid a := mark ∉ a
  word a := a ++ [mark]
  word_ne_nil := by simp
  word_unique := by
    rintro a b l ha hb ⟨r, rfl⟩ ⟨r', h⟩
    rw [List.append_assoc, List.append_assoc, List.singleton_append, List.singleton_append] at h
    rcases append_mark_eq_iff.mp h with ⟨heq, -⟩ | ⟨c, hc, -⟩ | ⟨c, hc, -⟩
    · exact heq.symm
    · exact absurd (by simp [hc]) ha
    · exact absurd (by simp [hc]) hb

/-- A record arrives in pieces: a piece is the last one, or the mark is still to come. -/
theorem append_flatten_eq {mark : β} {buf p l : List β} {ps : List (List β)}
    (hne : ∀ q ∈ p :: ps, q ≠ []) (h : buf ++ (p :: ps).flatten = l ++ [mark]) :
    (ps = [] ∧ buf ++ p = l ++ [mark]) ∨
      ∃ r, l = buf ++ p ++ r ∧ buf ++ p ++ ps.flatten = l ++ [mark] := by
  rw [List.flatten_cons, ← List.append_assoc] at h
  rcases List.eq_nil_or_concat ps.flatten with hnil | ⟨r, x, hr⟩
  · have hps : ps = [] := by
      cases ps with
      | nil => rfl
      | cons q qs =>
        have hq := (List.append_eq_nil_iff.mp hnil).1
        exact absurd hq (hne q (by simp))
    rw [hnil, List.append_nil] at h
    exact Or.inl ⟨hps, h⟩
  · refine Or.inr ⟨r, ?_, h⟩
    rw [hr, List.concat_eq_append, ← List.append_assoc] at h
    exact (List.append_inj' h rfl).1.symm

end PrefixCode

end RaftConsensus
