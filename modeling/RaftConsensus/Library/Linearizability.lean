import Mathlib.Data.List.Nodup
import Mathlib.Data.List.ReduceOption

/-!
# Linearizability, and objects that are made of a log

A concurrent object is seen through its *history*: the operations that were called and the
results that came back, in the order of time.  The history is linearizable if its operations
can be put in one order in which each of them, executed alone, gives the result that it
gave, and in which no operation comes before one that was over before it began.  An
operation that has not come back may have its place in this order or not.

Many objects are made of a log.  An operation that changes the object is an entry, and takes
effect at the place of its entry.  An operation that only looks takes effect between two
places.  `weave` puts them in this order.

* `Linearization`: an order of the operations that explains a history.
* `Linearization.of_log`: the order of a log explains a history if each operation gave the result of its
  place, and the places of two operations never contradict time.
-/

namespace RaftConsensus

variable {σ ω ρ : Type*}

/-- An object as a sequential program sees it: an operation changes the state and has a result. -/
structure SequentialObject (σ ω ρ : Type*) where
  init : σ
  apply : σ → ω → σ × ρ

/-- What happens at the interface of an object. -/
inductive Call (ω ρ : Type*)
  | invoke (o : ω)
  | respond (o : ω) (r : ρ)
  deriving DecidableEq, Repr

/-- In the history `h`, operation `o` is over before `o'` begins. -/
def Precedes (h : List (Call ω ρ)) (o o' : ω) : Prop :=
  ∃ h₁ h₂ r, h = h₁ ++ h₂ ∧ .respond o r ∈ h₁ ∧ .invoke o' ∈ h₂

/-- In the order `l`, operation `o` comes before `o'`. -/
def Before (l : List ω) (o o' : ω) : Prop := ∃ l₁ l₂, l = l₁ ++ l₂ ∧ o ∈ l₁ ∧ o' ∈ l₂

namespace SequentialObject

variable (obj : SequentialObject σ ω ρ)

/-- The state after the operations of a list. -/
def after (s : σ) (l : List ω) : σ := l.foldl (fun s o => (obj.apply s o).1) s

/-- The operations of a list with their results. -/
def results : σ → List ω → List (ω × ρ)
  | _, [] => []
  | s, o :: l => (o, (obj.apply s o).2) :: results (obj.apply s o).1 l

@[simp] theorem after_nil (s : σ) : obj.after s [] = s := rfl

@[simp] theorem after_cons (s : σ) (o : ω) (l : List ω) :
    obj.after s (o :: l) = obj.after (obj.apply s o).1 l := rfl

theorem results_append (s : σ) (l l' : List ω) :
    obj.results s (l ++ l') = obj.results s l ++ obj.results (obj.after s l) l' := by
  induction l generalizing s with
  | nil => rfl
  | cons o l ih =>
    rw [List.cons_append, results, results, ih, List.cons_append]
    rfl

/-- An operation in the middle has the result of the state that it finds. -/
theorem mem_results (s : σ) (l l' : List ω) (o : ω) :
    (o, (obj.apply (obj.after s l) o).2) ∈ obj.results s (l ++ o :: l') := by
  rw [results_append]
  exact List.mem_append_right _ List.mem_cons_self

/-- The operation only looks at the state. -/
def Looks (o : ω) : Prop := ∀ s, (obj.apply s o).1 = s

variable {obj}

/-- Operations that look change nothing. -/
theorem after_of_looks {l : List ω} (h : ∀ o ∈ l, obj.Looks o) (s : σ) : obj.after s l = s := by
  induction l with
  | nil => rfl
  | cons o l ih =>
    rw [after_cons, h o List.mem_cons_self]
    exact ih fun o' ho' => h o' (List.mem_cons_of_mem o ho')

end SequentialObject

/-- **The order `l` explains the history `h`.** -/
structure Linearization (obj : SequentialObject σ ω ρ) (h : List (Call ω ρ)) (l : List ω) :
    Prop where
  nodup : l.Nodup
  invoked : ∀ o ∈ l, .invoke o ∈ h
  results : ∀ {o r}, .respond o r ∈ h → (o, r) ∈ obj.results obj.init l
  realTime : ∀ {o o'}, Precedes h o o' → o' ∈ l → Before l o o'

/-- Some order explains the history. -/
def Linearizable (obj : SequentialObject σ ω ρ) (h : List (Call ω ρ)) : Prop :=
  ∃ l, Linearization obj h l

/-! ## The order of a log -/

/-- The operations from place `n` on: at each place first those that look, then the entry there, if
it is an operation. -/
def weave (reads : ℕ → List ω) : ℕ → List (Option ω) → List ω
  | n, [] => reads n
  | n, u :: us => reads n ++ (u.toList ++ weave reads (n + 1) us)

section Weave

variable {obj : SequentialObject σ ω ρ} {reads : ℕ → List ω} {rank : ω → ℕ} {n k : ℕ}
  {us : List (Option ω)} {o o' : ω}

theorem mem_weave : o ∈ weave reads n us ↔
    (∃ k ≤ us.length, o ∈ reads (n + k)) ∨ ∃ k : ℕ, us[k]? = some (some o) := by
  induction us generalizing n with
  | nil =>
    constructor
    · exact fun ho => Or.inl ⟨0, Nat.le_refl _, ho⟩
    · rintro (⟨k, hk, ho⟩ | ⟨k, hk⟩)
      · obtain rfl : k = 0 := Nat.le_zero.mp hk
        exact ho
      · exact absurd hk (by simp)
  | cons u us ih =>
    rw [weave, List.mem_append, List.mem_append, ih, Option.mem_toList]
    constructor
    · rintro (ho | ho | ⟨k, hk, ho⟩ | ⟨k, hk⟩)
      · exact Or.inl ⟨0, Nat.zero_le _, ho⟩
      · exact Or.inr ⟨0, congrArg some ho⟩
      · exact Or.inl ⟨k + 1, Nat.succ_le_succ hk, by rwa [Nat.add_right_comm] at ho⟩
      · exact Or.inr ⟨k + 1, hk⟩
    · rintro (⟨_ | k, hk, ho⟩ | ⟨_ | k, hk⟩)
      · exact Or.inl ho
      · exact Or.inr (Or.inr (Or.inl ⟨k, Nat.le_of_succ_le_succ hk, by
          rwa [Nat.add_right_comm]⟩))
      · exact Or.inr (Or.inl (Option.some.inj hk))
      · exact Or.inr (Or.inr (Or.inr ⟨k, hk⟩))

/-- **The places of the operations as numbers**: even ones between the entries, odd ones at them. -/
structure Ranked (rank : ω → ℕ) (reads : ℕ → List ω) (n : ℕ) (us : List (Option ω)) : Prop where
  read : ∀ {k o}, o ∈ reads k → rank o = 2 * k
  write : ∀ {k o}, us[k]? = some (some o) → rank o = 2 * (n + k) + 1

theorem Ranked.tail {u : Option ω} (h : Ranked rank reads n (u :: us)) :
    Ranked rank reads (n + 1) us where
  read := h.read
  write {k o} hk := by
    have := h.write (k := k + 1) hk
    omega

theorem Ranked.le (h : Ranked rank reads n us) (ho : o ∈ weave reads n us) : 2 * n ≤ rank o := by
  rcases mem_weave.mp ho with ⟨k, -, hk⟩ | ⟨k, hk⟩
  · have := h.read hk
    omega
  · have := h.write hk
    omega

theorem Ranked.sorted (h : Ranked rank reads n us) :
    (weave reads n us).Pairwise fun o o' => rank o ≤ rank o' := by
  have hreads : ∀ k, (reads k).Pairwise fun o o' => rank o ≤ rank o' := fun k =>
    List.pairwise_of_forall_mem_list fun o ho o' ho' =>
      Nat.le_of_eq ((h.read ho).trans (h.read ho').symm)
  induction us generalizing n with
  | nil => exact hreads n
  | cons u us ih =>
    have hrest : ∀ o' ∈ u.toList ++ weave reads (n + 1) us, 2 * n + 1 ≤ rank o' := by
      intro o' ho'
      rcases List.mem_append.mp ho' with ho' | ho'
      · have := h.write (k := 0) (congrArg some (Option.mem_toList.mp ho'))
        omega
      · have := h.tail.le ho'
        omega
    refine List.pairwise_append.mpr ⟨hreads n, List.pairwise_append.mpr ⟨?_, ih h.tail, ?_⟩, ?_⟩
    · cases u <;> simp
    · intro o ho o' ho'
      have hw := h.write (k := 0) (congrArg some (Option.mem_toList.mp ho))
      have hle := h.tail.le ho'
      omega
    · intro o ho o' ho'
      have hr := h.read ho
      have hle := hrest o' ho'
      omega

theorem Ranked.nodup (h : Ranked rank reads n us) (hreads : ∀ k, (reads k).Nodup) :
    (weave reads n us).Nodup := by
  induction us generalizing n with
  | nil => exact hreads n
  | cons u us ih =>
    have hw : ∀ o ∈ u.toList, rank o = 2 * n + 1 := fun o ho =>
      h.write (k := 0) (congrArg some (Option.mem_toList.mp ho))
    refine List.nodup_append.mpr ⟨hreads n, List.nodup_append.mpr ⟨?_, ih h.tail, ?_⟩, ?_⟩
    · cases u <;> simp
    · rintro o ho o' ho' rfl
      have := hw o ho
      have := h.tail.le ho'
      omega
    · rintro o ho o' ho' rfl
      have hr := h.read ho
      rcases List.mem_append.mp ho' with ho' | ho'
      · have := hw o ho'
        omega
      · have := h.tail.le ho'
        omega

/-- In a sorted order, the smaller place comes first. -/
theorem before_of_rank_lt {l : List ω} (hl : l.Pairwise fun o o' => rank o ≤ rank o')
    (ho : o ∈ l) (ho' : o' ∈ l) (hlt : rank o < rank o') : Before l o o' := by
  obtain ⟨l₁, l₂, rfl⟩ := List.append_of_mem ho'
  refine ⟨l₁, o' :: l₂, rfl, ?_, List.mem_cons_self⟩
  rcases List.mem_append.mp ho with ho | ho
  · exact ho
  · rcases List.mem_cons.mp ho with rfl | ho
    · exact absurd hlt (Nat.lt_irrefl _)
    · have hle := (List.pairwise_cons.mp (List.pairwise_append.mp hl).2.1).1 o ho
      exact absurd hlt (Nat.not_lt.mpr hle)

/-- **The result of an operation that looks** is that of the entries before it. -/
theorem mem_results_read (hreads : ∀ k, ∀ o ∈ reads k, obj.Looks o) (hk : k ≤ us.length)
    (ho : o ∈ reads (n + k)) (s : σ) :
    (o, (obj.apply (obj.after s (us.take k).reduceOption) o).2) ∈
      obj.results s (weave reads n us) := by
  -- among the reads of one place, all find the same state
  have hhere : ∀ {m s l}, o ∈ reads m →
      (o, (obj.apply s o).2) ∈ obj.results s (reads m ++ l) := by
    intro m s l ho
    obtain ⟨l₁, l₂, hl⟩ := List.append_of_mem ho
    have hlook : obj.after s l₁ = s := SequentialObject.after_of_looks (fun o' ho' =>
      hreads m o' (hl ▸ List.mem_append_left _ ho')) s
    have := obj.mem_results s l₁ (l₂ ++ l) o
    rw [hlook] at this
    rwa [hl, List.append_assoc]
  induction us generalizing n k s with
  | nil =>
    obtain rfl : k = 0 := Nat.le_zero.mp hk
    have := hhere (s := s) (l := []) ho
    rwa [List.append_nil] at this
  | cons u us ih =>
    rcases k with _ | k
    · exact hhere ho
    · rw [weave, obj.results_append, obj.results_append,
        SequentialObject.after_of_looks (hreads n)]
      refine List.mem_append_right _ (List.mem_append_right _ ?_)
      have hrec := ih (Nat.le_of_succ_le_succ hk) (n := n + 1)
        (by rwa [Nat.add_right_comm]) (obj.after s u.toList)
      cases u with
      | none => exact hrec
      | some w => exact hrec

/-- **The result of an entry** is that of the entries before it. -/
theorem mem_results_write (hreads : ∀ k, ∀ o ∈ reads k, obj.Looks o)
    (hk : us[k]? = some (some o)) (s : σ) :
    (o, (obj.apply (obj.after s (us.take k).reduceOption) o).2) ∈
      obj.results s (weave reads n us) := by
  induction us generalizing n k s with
  | nil => exact absurd hk (by simp)
  | cons u us ih =>
    rw [weave, obj.results_append, obj.results_append, SequentialObject.after_of_looks (hreads n)]
    refine List.mem_append_right _ ?_
    rcases k with _ | k
    · obtain rfl : u = some o := Option.some.inj hk
      exact List.mem_append_left _ List.mem_cons_self
    · refine List.mem_append_right _ ?_
      have hrec := ih (n := n + 1) (k := k) hk (obj.after s u.toList)
      cases u with
      | none => exact hrec
      | some w => exact hrec

/-- **Objects made of a log are linearizable**: if each result is that of the place of its operation,
and an operation that begins when another one is over gets a later place. -/
theorem Linearization.of_log {h : List (Call ω ρ)} (hrank : Ranked rank reads 0 us)
    (hreads : ∀ k, (reads k).Nodup ∧ ∀ o ∈ reads k, obj.Looks o)
    (hinvoked : ∀ o ∈ weave reads 0 us, .invoke o ∈ h)
    (hresults : ∀ {o r}, .respond o r ∈ h →
      ∃ k, (us[k]? = some (some o) ∨ k ≤ us.length ∧ o ∈ reads k) ∧
        r = (obj.apply (obj.after obj.init (us.take k).reduceOption) o).2)
    (htime : ∀ {o o'}, Precedes h o o' → o' ∈ weave reads 0 us → rank o < rank o') :
    Linearization obj h (weave reads 0 us) where
  nodup := hrank.nodup fun k => (hreads k).1
  invoked := hinvoked
  results {o r} ho := by
    obtain ⟨k, hk | ⟨hle, hk⟩, rfl⟩ := hresults ho
    · exact mem_results_write (fun k => (hreads k).2) hk _
    · exact mem_results_read (fun k => (hreads k).2) hle (by rwa [Nat.zero_add]) _
  realTime {o o'} hp ho' := by
    refine before_of_rank_lt hrank.sorted ?_ ho' (htime hp ho')
    obtain ⟨h₁, h₂, r, rfl, hr, -⟩ := hp
    obtain ⟨k, hk | ⟨hle, hk⟩, -⟩ := hresults (List.mem_append_left _ hr)
    · exact mem_weave.mpr (Or.inr ⟨k, hk⟩)
    · exact mem_weave.mpr (Or.inl ⟨k, hle, by rwa [Nat.zero_add]⟩)

end Weave

end RaftConsensus
