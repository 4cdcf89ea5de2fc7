import Mathlib.Data.List.Basic
import Mathlib.Tactic.TypeStar

/-!
# Machines, runs and their traces

A machine is a start state and a partial step function on actions; a step also
says which events it produced.  A *run* is a finite sequence of steps from the
start state, and its trace is the list of all events in order.

The predicate `P` restricts which steps a run may take.  It is how an assumption
on the environment is written down: "no counter wraps", "no crash inside a write"
are properties of a state together with the action about to be taken, and a
theorem over `Run M P` is a theorem about the runs all of whose steps meet them.

* `Run.invariant` packages the induction: a property of trace and state that holds
  at the start and survives each step holds at the end of every run.
* `Run.mono` weakens the restriction.
* `Run.exists_step` goes back from an event to the step that produced it.
* `Machine.exec` runs a list of actions, and `Run.exists_of_exec` turns an execution
  that passes a check into a run to a state that passes it.
* `Path` is what a run does from some state on; `Run.path` puts the two together.
* `Leads` says that there is a path to a state with some property.  `Leads.of_decreasing` takes a
  path again and again, and `Leads.forall` takes one for each element of a list.
* `Run.simulates` follows the runs of one machine in another.
* `Machine.withHistory` adds a variable that only records.  `Run.forget` and
  `Run.withHistory` say that this neither adds runs nor takes any away.
-/

namespace RaftConsensus

variable {σ α ε : Type*}

/-- A start state and a partial step function.  `step s a = none` says that the
action `a` is not possible in `s`. -/
structure Machine (σ α ε : Type*) where
  init : σ
  step : σ → α → Option (σ × List ε)

/-- The runs of `M` whose steps all satisfy `P`, with the trace so far. -/
inductive Run (M : Machine σ α ε) (P : σ → α → Prop) : List ε → σ → Prop
  | start : Run M P [] M.init
  | next {tr : List ε} {s s' : σ} {a : α} {es : List ε} :
      Run M P tr s → P s a → M.step s a = some (s', es) → Run M P (tr ++ es) s'

variable {M : Machine σ α ε} {P P' : σ → α → Prop}

/-- **The invariant rule.**  The step obligation also receives the run that leads
to the state, so that earlier invariants can be used. -/
theorem Run.invariant {I : List ε → σ → Prop} (h0 : I [] M.init)
    (hstep : ∀ {tr s a s' es}, Run M P tr s → I tr s → P s a →
      M.step s a = some (s', es) → I (tr ++ es) s') :
    ∀ {tr s}, Run M P tr s → I tr s := by
  intro tr s h
  induction h with
  | start => exact h0
  | next hr hP hs ih => exact hstep hr ih hP hs

/-- A run under a stronger restriction is a run under a weaker one. -/
theorem Run.mono (hPP : ∀ s a, P s a → P' s a) :
    ∀ {tr s}, Run M P tr s → Run M P' tr s := by
  intro tr s h
  induction h with
  | start => exact .start
  | next _ hP hs ih => exact .next ih (hPP _ _ hP) hs

/-- **Every event was produced by a step**, which took a run that is a part of this one further. -/
theorem Run.exists_step {tr : List ε} {s : σ} (h : Run M P tr s) {k : ℕ} {e : ε}
    (hk : tr[k]? = some e) : ∃ tr₀ s₀ a s₁ es l, Run M P tr₀ s₀ ∧ P s₀ a ∧
      M.step s₀ a = some (s₁, es) ∧ es[l]? = some e ∧ k = tr₀.length + l ∧ tr₀ ++ es <+: tr := by
  induction h with
  | start => exact absurd hk (by simp)
  | @next tr s s' a es hr hP hs ih =>
    rcases Nat.lt_or_ge k tr.length with hlt | hge
    · rw [List.getElem?_append_left hlt] at hk
      obtain ⟨tr₀, s₀, b, s₁, es₀, l, h₀, hb, hs₀, hl, hkl, hpre⟩ := ih hk
      exact ⟨tr₀, s₀, b, s₁, es₀, l, h₀, hb, hs₀, hl, hkl, hpre.trans (List.prefix_append _ _)⟩
    · rw [List.getElem?_append_right hge] at hk
      exact ⟨tr, s, a, s', es, k - tr.length, hr, hP, hs, hk, by omega, List.prefix_rfl⟩

/-- Run a list of actions, checking the Boolean restriction `p` before each. -/
def Machine.exec (M : Machine σ α ε) (p : σ → α → Bool) : σ → List α → Option (σ × List ε)
  | s, [] => some (s, [])
  | s, a :: as =>
    if p s a then
      match M.step s a with
      | none => none
      | some (s', es) =>
        match M.exec p s' as with
        | none => none
        | some (s'', es') => some (s'', es ++ es')
    else none

/-- An executed list of actions continues a run. -/
theorem Run.exec {p : σ → α → Bool} (hp : ∀ s a, p s a = true → P s a) :
    ∀ {as : List α} {tr : List ε} {s s' : σ} {es : List ε}, Run M P tr s →
      M.exec p s as = some (s', es) → Run M P (tr ++ es) s' := by
  intro as
  induction as with
  | nil =>
    intro tr s s' es h hx
    simp only [Machine.exec, Option.some.injEq, Prod.mk.injEq] at hx
    obtain ⟨rfl, rfl⟩ := hx
    rwa [List.append_nil]
  | cons a as ih =>
    intro tr s s' es h hx
    rw [Machine.exec] at hx
    split at hx
    · next hpa =>
      split at hx
      · exact absurd hx (by simp)
      · next s₁ es₁ hs₁ =>
        split at hx
        · exact absurd hx (by simp)
        · next s₂ es₂ hs₂ =>
          simp only [Option.some.injEq, Prod.mk.injEq] at hx
          obtain ⟨rfl, rfl⟩ := hx
          rw [← List.append_assoc]
          exact ih (h.next (hp _ _ hpa) hs₁) hs₂
    · exact absurd hx (by simp)

theorem Run.of_exec {p : σ → α → Bool} (hp : ∀ s a, p s a = true → P s a) {as : List α}
    {s : σ} {tr : List ε} (hx : M.exec p M.init as = some (s, tr)) : Run M P tr s := by
  have h := Run.exec hp (Run.start (M := M) (P := P)) hx
  rwa [List.nil_append] at h

/-- A list of actions whose execution passes a check shows that there is a run to a state that
passes it. -/
theorem Run.exists_of_exec {p : σ → α → Bool} (hp : ∀ s a, p s a = true → P s a)
    (check : σ → List ε → Bool) (as : List α)
    (h : (M.exec p M.init as).any (fun r => check r.1 r.2) = true) :
    ∃ tr s, Run M P tr s ∧ check s tr = true := by
  rcases hx : M.exec p M.init as with _ | ⟨s, tr⟩
  · rw [hx] at h
    exact absurd h (by simp)
  · rw [hx] at h
    exact ⟨tr, s, Run.of_exec hp hx, h⟩

/-! ## From one state to another -/

/-- The ways from one state to another by steps that satisfy `P`, with what they produce. -/
inductive Path (M : Machine σ α ε) (P : σ → α → Prop) (s : σ) : List ε → σ → Prop
  | refl : Path M P s [] s
  | next {tr : List ε} {s' s'' : σ} {a : α} {es : List ε} :
      Path M P s tr s' → P s' a → M.step s' a = some (s'', es) → Path M P s (tr ++ es) s''

/-- **The invariant rule** for what happens from some state on. -/
theorem Path.invariant {s : σ} {I : List ε → σ → Prop} (h0 : I [] s)
    (hstep : ∀ {tr s' a s'' es}, Path M P s tr s' → I tr s' → P s' a →
      M.step s' a = some (s'', es) → I (tr ++ es) s'') :
    ∀ {tr s'}, Path M P s tr s' → I tr s' := by
  intro tr s' h
  induction h with
  | refl => exact h0
  | next hp hP hs ih => exact hstep hp ih hP hs

theorem Path.trans {tr tr' : List ε} {s s' s'' : σ} (h : Path M P s tr s')
    (h' : Path M P s' tr' s'') : Path M P s (tr ++ tr') s'' := by
  induction h' with
  | refl => rwa [List.append_nil]
  | next _ hP hs ih =>
    rw [← List.append_assoc]
    exact ih.next hP hs

theorem Path.step {s s' : σ} {a : α} {es : List ε} (hP : P s a)
    (hs : M.step s a = some (s', es)) : Path M P s es s' := by
  have h := (Path.refl (M := M) (P := P) (s := s)).next hP hs
  rwa [List.nil_append] at h

/-- **A run goes on.** -/
theorem Run.path {tr tr' : List ε} {s s' : σ} (h : Run M P tr s) (h' : Path M P s tr' s') :
    Run M P (tr ++ tr') s' := by
  induction h' with
  | refl => rwa [List.append_nil]
  | next _ hP hs ih =>
    rw [← List.append_assoc]
    exact ih.next hP hs

/-- An executed list of actions is a path. -/
theorem Path.of_exec {p : σ → α → Bool} (hp : ∀ s a, p s a = true → P s a) {as : List α}
    {s s' : σ} {es : List ε} (hx : M.exec p s as = some (s', es)) : Path M P s es s' := by
  induction as generalizing s es with
  | nil =>
    obtain ⟨rfl, rfl⟩ := Prod.mk.inj (Option.some.inj hx)
    exact .refl
  | cons a as ih =>
    rw [Machine.exec] at hx
    split at hx
    · next hpa =>
      split at hx
      · exact absurd hx (by simp)
      · next s₁ es₁ hs₁ =>
        split at hx
        · exact absurd hx (by simp)
        · next s₂ es₂ hs₂ =>
          obtain ⟨rfl, rfl⟩ := Prod.mk.inj (Option.some.inj hx)
          exact (Path.step (hp _ _ hpa) hs₁).trans (ih hs₂)
    · exact absurd hx (by simp)

/-- A list of actions whose execution passes a check shows that there is a path to a state that
passes it. -/
theorem Path.exists_of_exec {p : σ → α → Bool} (hp : ∀ s a, p s a = true → P s a)
    (check : σ × List ε → Bool) (as : List α) {s : σ} (h : (M.exec p s as).any check = true) :
    ∃ tr s', Path M P s tr s' ∧ check (s', tr) = true := by
  rcases hx : M.exec p s as with _ | ⟨s', tr⟩ <;> rw [hx] at h
  · exact absurd h (by simp)
  · exact ⟨tr, s', .of_exec hp hx, h⟩

/-- Two lists of actions, one executed after the other, whose two end states pass a check. -/
theorem Run.exists_path_of_exec {p : σ → α → Bool} (hp : ∀ s a, p s a = true → P s a)
    (check : σ → σ → Bool) (as as' : List α)
    (h : ((M.exec p M.init as).any fun r =>
      (M.exec p r.1 as').any fun r' => check r.1 r'.1) = true) :
    ∃ tr s tr' s', Run M P tr s ∧ Path M P s tr' s' ∧ check s s' = true := by
  rcases hx : M.exec p M.init as with _ | ⟨s, tr⟩ <;> rw [hx] at h
  · exact absurd h (by simp)
  rw [Option.any_some] at h
  rcases hx' : M.exec p s as' with _ | ⟨s', tr'⟩ <;> rw [hx'] at h
  · exact absurd h (by simp)
  · exact ⟨tr, s, tr', s', .of_exec hp hx, .of_exec hp hx', h⟩

/-- A path under a stronger restriction is a path under a weaker one. -/
theorem Path.mono (hPP : ∀ s a, P s a → P' s a) {tr : List ε} {s s' : σ}
    (h : Path M P s tr s') : Path M P' s tr s' := by
  induction h with
  | refl => exact .refl
  | next _ hP hs ih => exact ih.next (hPP _ _ hP) hs

/-! ## What a state can lead to -/

/-- Some path leads from `s` to a state with `Q`. -/
def Leads (M : Machine σ α ε) (P : σ → α → Prop) (s : σ) (Q : σ → Prop) : Prop :=
  ∃ tr s', Path M P s tr s' ∧ Q s'

variable {I Q Q' : σ → Prop} {s : σ}

theorem Leads.refl (h : Q s) : Leads M P s Q := ⟨[], s, .refl, h⟩

theorem Leads.step {s' : σ} {a : α} {es : List ε} (hP : P s a) (hs : M.step s a = some (s', es)) :
    Leads M P s fun x => x = s' := ⟨es, s', .step hP hs, rfl⟩

theorem Leads.trans (h : Leads M P s Q) (h' : ∀ s', Q s' → Leads M P s' Q') :
    Leads M P s Q' := by
  obtain ⟨tr, s', hp, hQ⟩ := h
  obtain ⟨tr', s'', hp', hQ'⟩ := h' s' hQ
  exact ⟨tr ++ tr', s'', hp.trans hp', hQ'⟩

theorem Leads.mono (h : Leads M P s Q) (hQ : ∀ s', Q s' → Q' s') : Leads M P s Q' :=
  h.trans fun s' hs' => .refl (hQ s' hs')

/-- **Again and again**: what leads on and gets less each time comes to an end. -/
theorem Leads.of_decreasing (f : σ → ℕ)
    (h : ∀ s, I s → Leads M P s fun s' => Q s' ∨ (I s' ∧ f s' < f s)) (hs : I s) :
    Leads M P s Q := by
  generalize hn : f s = n
  induction n using Nat.strongRecOn generalizing s with
  | ind n ih =>
    refine (h s hs).trans fun s' hs' => ?_
    rcases hs' with hQ | ⟨hI, hlt⟩
    · exact .refl hQ
    · exact ih (f s') (hn ▸ hlt) hI rfl

/-- **One after the other**: a path for each element, which takes nothing from the others, leads to
where all elements have it. -/
theorem Leads.forall {κ : Type*} {R : κ → σ → Prop} {xs : List κ}
    (h : ∀ x ∈ xs, ∀ s, I s →
      Leads M P s fun s' => I s' ∧ R x s' ∧ ∀ y, y ≠ x → R y s → R y s')
    (hs : I s) : Leads M P s fun s' => I s' ∧ ∀ x ∈ xs, R x s' := by
  induction xs with
  | nil => exact .refl ⟨hs, fun x hx => absurd hx List.not_mem_nil⟩
  | cons x xs ih =>
    refine (ih fun y hy => h y (List.mem_cons_of_mem x hy)).trans fun s₁ hs₁ => ?_
    refine (h x List.mem_cons_self s₁ hs₁.1).mono fun s₂ hs₂ => ⟨hs₂.1, fun y hy => ?_⟩
    by_cases hyx : y = x
    · exact hyx ▸ hs₂.2.1
    · exact hs₂.2.2 y hyx (hs₁.2 y ((List.mem_cons.mp hy).resolve_left hyx))

/-! ## Simulation -/

/-- **The simulation rule.**  If every step of `M` can be followed in `M'` by a path with the same
events, then every run of `M` can be followed by a run of `M'`. -/
theorem Run.simulates {σ' α' : Type*} {M' : Machine σ' α' ε} {P' : σ' → α' → Prop}
    {R : σ → σ' → Prop} (h0 : R M.init M'.init)
    (hstep : ∀ {tr s x a s₁ es}, Run M P tr s → Run M' P' tr x → R s x → P s a →
      M.step s a = some (s₁, es) → ∃ x₁, Path M' P' x es x₁ ∧ R s₁ x₁)
    {tr : List ε} {s : σ} (h : Run M P tr s) : ∃ x, Run M' P' tr x ∧ R s x := by
  induction h with
  | start => exact ⟨M'.init, .start, h0⟩
  | next hr hP hs ih =>
    obtain ⟨x, hx, hR⟩ := ih
    obtain ⟨x₁, hp, hR₁⟩ := hstep hr hx hR hP hs
    exact ⟨x₁, hx.path hp, hR₁⟩

/-! ## History variables -/

variable {η : Type*} {x₀ : η} {next : σ → α → σ → List ε → η → η}

/-- `M` with a history variable: each step updates it, and no step depends on it. -/
def Machine.withHistory (M : Machine σ α ε) (x₀ : η) (next : σ → α → σ → List ε → η → η) :
    Machine (σ × η) α ε where
  init := (M.init, x₀)
  step p a := (M.step p.1 a).map fun r => ((r.1, next p.1 a r.1 r.2 p.2), r.2)

/-- A step with the history variable is a step without it, and an update. -/
theorem Machine.withHistory_step {p p' : σ × η} {a : α} {es : List ε}
    (h : (M.withHistory x₀ next).step p a = some (p', es)) :
    M.step p.1 a = some (p'.1, es) ∧ p'.2 = next p.1 a p'.1 es p.2 := by
  obtain ⟨r, hr, heq⟩ := Option.map_eq_some_iff.mp h
  obtain ⟨rfl, rfl⟩ := Prod.mk.inj heq
  exact ⟨hr, rfl⟩

/-- Without its history variable, a run is a run. -/
theorem Run.forget {tr : List ε} {p : σ × η}
    (h : Run (M.withHistory x₀ next) (fun p a => P p.1 a) tr p) : Run M P tr p.1 := by
  induction h with
  | start => exact .start
  | next _ hP hs ih => exact ih.next hP (Machine.withHistory_step hs).1

/-- **Every run has a history.** -/
theorem Run.withHistory {tr : List ε} {s : σ} (h : Run M P tr s) :
    ∃ x, Run (M.withHistory x₀ next) (fun p a => P p.1 a) tr (s, x) := by
  induction h with
  | start => exact ⟨x₀, .start⟩
  | @next tr s s' a es _ hP hs ih =>
    obtain ⟨x, hx⟩ := ih
    refine ⟨next s a s' es x, hx.next hP ?_⟩
    show (M.step s a).map _ = _
    rw [hs]
    rfl

end RaftConsensus
