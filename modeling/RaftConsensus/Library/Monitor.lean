import Mathlib.Data.List.Basic
import Mathlib.Tactic.TypeStar

/-!
# Monitors

A monitor reads a list of events one at a time.  It keeps a state of its own, and in each
state it accepts some events and not others.  `M.Reads p es q` says that from `p` it
accepts all of `es` and ends in `q`.

A program that promises to do things in a certain order, for instance to write a record
before it speaks of it, keeps that promise if a monitor accepts what it does.  The monitor
sees *every* prefix, so what it accepts is also right when the program is cut off in the
middle (`Reads.take`).
-/

namespace RaftConsensus

variable {σ ε : Type*}

/-- How the state changes with an event, and which events are accepted. -/
structure Monitor (σ ε : Type*) where
  next : σ → ε → σ
  ok : σ → ε → Prop

namespace Monitor

/-- From the first state the monitor accepts the events, and it ends in the last state. -/
inductive Reads (M : Monitor σ ε) : σ → List ε → σ → Prop
  | nil (p : σ) : Reads M p [] p
  | cons {p q : σ} {e : ε} {es : List ε} :
      M.ok p e → Reads M (M.next p e) es q → Reads M p (e :: es) q

variable {M : Monitor σ ε} {p q r : σ} {e : ε} {es es' : List ε}

theorem Reads.append (h : M.Reads p es q) (h' : M.Reads q es' r) : M.Reads p (es ++ es') r := by
  induction h with
  | nil p => exact h'
  | cons hok _ ih => exact .cons hok (ih h')

theorem Reads.snoc (h : M.Reads p es q) (he : M.ok q e) : M.Reads p (es ++ [e]) (M.next q e) :=
  h.append (.cons he (.nil _))

/-- The end is determined by what was read. -/
theorem Reads.unique (h : M.Reads p es q) (h' : M.Reads p es r) : q = r := by
  induction h with
  | nil p =>
    cases h' with
    | nil => rfl
  | cons _ _ ih =>
    cases h' with
    | cons _ hrest => exact ih hrest

/-- Events that are accepted and change nothing. -/
theorem Reads.idle (h : ∀ e ∈ es, M.ok p e ∧ M.next p e = p) : M.Reads p es p := by
  induction es with
  | nil => exact .nil p
  | cons e es ih =>
    obtain ⟨hok, hnext⟩ := h e List.mem_cons_self
    refine .cons hok ?_
    rw [hnext]
    exact ih fun x hx => h x (List.mem_cons_of_mem e hx)

/-- What is cut off after `k` events has been accepted as well. -/
theorem Reads.take (h : M.Reads p es q) (k : ℕ) : ∃ r, M.Reads p (es.take k) r := by
  induction h generalizing k with
  | nil p => exact ⟨p, by simpa using Reads.nil p⟩
  | cons hok _ ih =>
    rcases k with _ | k
    · exact ⟨_, .nil _⟩
    · obtain ⟨r, hr⟩ := ih k
      exact ⟨r, .cons hok hr⟩

/-- The event at position `k` was accepted after those before it. -/
theorem Reads.getElem? (h : M.Reads p es q) {k : ℕ} (hk : es[k]? = some e) :
    ∃ r, M.Reads p (es.take k) r ∧ M.ok r e ∧ M.Reads p (es.take (k + 1)) (M.next r e) := by
  induction h generalizing k with
  | nil p => simp at hk
  | cons hok _ ih =>
    rcases k with _ | k
    · rw [List.getElem?_cons_zero, Option.some.injEq] at hk
      subst hk
      exact ⟨_, .nil _, hok, .cons hok (.nil _)⟩
    · obtain ⟨r, hr, hrok, hrnext⟩ := ih hk
      exact ⟨r, .cons hok hr, hrok, .cons hok hrnext⟩

/-- A last event that changes nothing. -/
theorem Reads.of_concat (h : M.Reads p (es ++ [e]) q) (hidle : ∀ r, M.next r e = r) :
    M.Reads p es q := by
  obtain ⟨r, hr, -, hnext⟩ := h.getElem? (List.getElem?_concat_length ..)
  rw [List.take_left] at hr
  rw [List.take_of_length_le (by simp), hidle] at hnext
  rw [h.unique hnext]
  exact hr

/-- **The invariant rule** for what the monitor has read. -/
theorem Reads.invariant {I : List ε → σ → Prop} (h : M.Reads p es q)
    (hstep : ∀ tr r e, I tr r → M.ok r e → I (tr ++ [e]) (M.next r e)) (tr : List ε)
    (hI : I tr p) : I (tr ++ es) q := by
  induction h generalizing tr with
  | nil p => rwa [List.append_nil]
  | cons hok _ ih =>
    rw [List.append_cons]
    exact ih _ (hstep _ _ _ hI hok)

end Monitor

end RaftConsensus
