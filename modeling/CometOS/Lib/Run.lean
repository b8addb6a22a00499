import Mathlib.Tactic

/-!
# Runs of a step function

A system is a partial step function `step : σ → ο → Option σ`; `none` is an operation its user may
not ask for in that state.  A run is a list of operations.  `AllStates P` says `P` of every state
the run reaches, its start included; `AllSteps C` says `C` of every state and operation at which
the run takes a step.  The two rules of use are `run_inv` (an invariant holds after every run) and
`allStates_iff_allSteps` (a property holds all along a run exactly when every step of it meets a
condition).
-/

namespace Run

variable {σ ο : Type*}

/-- The state after a list of operations, if all of them may be asked for. -/
def run (step : σ → ο → Option σ) : σ → List ο → Option σ
  | s, [] => some s
  | s, o :: os => (step s o).bind fun s' => run step s' os

/-- `P` holds at the start and after every step. -/
def AllStates (step : σ → ο → Option σ) (P : σ → Prop) : σ → List ο → Prop
  | s, [] => P s
  | s, o :: os => P s ∧ ∀ s', step s o = some s' → AllStates step P s' os

/-- `C` holds at every step that is taken, in the state before it. -/
def AllSteps (step : σ → ο → Option σ) (C : σ → ο → Prop) : σ → List ο → Prop
  | _, [] => True
  | s, o :: os => ∀ s', step s o = some s' → C s o ∧ AllSteps step C s' os

variable {step : σ → ο → Option σ}

theorem run_cons (s : σ) (o : ο) (os : List ο) :
    run step s (o :: os) = (step s o).bind fun s' => run step s' os := rfl

theorem run_append (s : σ) (xs ys : List ο) :
    run step s (xs ++ ys) = (run step s xs).bind fun s' => run step s' ys := by
  induction xs generalizing s with
  | nil => rfl
  | cons o os ih =>
    rw [List.cons_append, run_cons, run_cons]
    cases hs : step s o with
    | none => rfl
    | some s' => simpa only [Option.bind_some] using ih s'

/-- **Invariant rule.**  A predicate every step keeps holds after every run. -/
theorem run_inv (I : σ → Prop) (hstep : ∀ s o s', I s → step s o = some s' → I s') :
    ∀ (os : List ο) (s s' : σ), I s → run step s os = some s' → I s' := by
  intro os
  induction os with
  | nil =>
    intro s s' hs h
    cases h
    exact hs
  | cons o os ih =>
    intro s s' hs h
    rw [run_cons] at h
    cases ho : step s o with
    | none => rw [ho] at h; cases h
    | some t =>
      rw [ho] at h
      exact ih t s' (hstep s o t hs ho) h

/-- Each operation of the list may be asked for in the state it is asked for in. -/
def Permitted (step : σ → ο → Option σ) (C : σ → ο → Prop) : σ → List ο → Prop
  | _, [] => True
  | s, o :: os => C s o ∧ ∀ s', step s o = some s' → Permitted step C s' os

theorem Permitted.imp {C D : σ → ο → Prop} (h : ∀ s o, C s o → D s o) :
    ∀ {os : List ο} {s : σ}, Permitted step C s os → Permitted step D s os := by
  intro os
  induction os with
  | nil => exact fun _ => trivial
  | cons o os ih =>
    rintro s ⟨hC, hrest⟩
    exact ⟨h s o hC, fun s' hs' => ih (hrest s' hs')⟩

/-- What is asked of every operation holds of those that are taken. -/
theorem Permitted.allSteps {C : σ → ο → Prop} :
    ∀ {os : List ο} {s : σ}, Permitted step C s os → AllSteps step C s os := by
  intro os
  induction os with
  | nil => exact fun _ => trivial
  | cons o os ih =>
    rintro s ⟨hC, hrest⟩ s' hs'
    exact ⟨hC, ih (hrest s' hs')⟩

/-- A condition on the operations alone. -/
theorem Permitted.and {C : σ → ο → Prop} {D : ο → Prop} :
    ∀ {os : List ο} {s : σ}, Permitted step C s os → (∀ o ∈ os, D o) →
      Permitted step (fun s o => C s o ∧ D o) s os := by
  intro os
  induction os with
  | nil => exact fun _ _ => trivial
  | cons o os ih =>
    rintro s ⟨hC, hrest⟩ hD
    obtain ⟨ho, hos⟩ := List.forall_mem_cons.1 hD
    exact ⟨⟨hC, ho⟩, fun s' hs' => ih (hrest s' hs') hos⟩

/-- **Step condition rule.**  Two conditions that agree wherever an invariant holds permit the same
lists, if the steps that meet the first keep the invariant. -/
theorem permitted_iff {I : σ → Prop} {C D : σ → ο → Prop} (hiff : ∀ s o, I s → (C s o ↔ D s o))
    (hstep : ∀ s o s', I s → C s o → step s o = some s' → I s') :
    ∀ (os : List ο) (s : σ), I s → (Permitted step C s os ↔ Permitted step D s os) := by
  intro os
  induction os with
  | nil => exact fun _ _ => Iff.rfl
  | cons o os ih =>
    intro s hs
    constructor
    · rintro ⟨hC, hrest⟩
      exact ⟨(hiff s o hs).1 hC, fun s' hs' =>
        (ih s' (hstep s o s' hs hC hs')).1 (hrest s' hs')⟩
    · rintro ⟨hD, hrest⟩
      have hC := (hiff s o hs).2 hD
      exact ⟨hC, fun s' hs' => (ih s' (hstep s o s' hs hC hs')).2 (hrest s' hs')⟩

/-- **Total invariant rule.**  If an operation that may be asked for always completes and keeps the
invariant, then so does a list of them. -/
theorem run_total (I : σ → Prop) {C : σ → ο → Prop}
    (hstep : ∀ s o, I s → C s o → ∃ s', step s o = some s' ∧ I s') :
    ∀ (os : List ο) (s : σ), I s → Permitted step C s os → ∃ s', run step s os = some s' ∧ I s' := by
  intro os
  induction os with
  | nil =>
    intro s hs _
    exact ⟨s, rfl, hs⟩
  | cons o os ih =>
    intro s hs h
    obtain ⟨hC, hrest⟩ := h
    obtain ⟨t, ht, hIt⟩ := hstep s o hs hC
    obtain ⟨s', hr, hs'⟩ := ih t hIt (hrest t ht)
    refine ⟨s', ?_, hs'⟩
    rw [run_cons, ht]
    exact hr

/-- **Rule for restricted steps.**  What every step that meets the condition keeps holds all along a
run of such steps. -/
theorem allStates_of_permitted {I : σ → Prop} {C : σ → ο → Prop}
    (hstep : ∀ s o s', I s → C s o → step s o = some s' → I s') :
    ∀ (os : List ο) (s : σ), I s → Permitted step C s os → AllStates step I s os := by
  intro os
  induction os with
  | nil => exact fun s hs _ => hs
  | cons o os ih =>
    rintro s hs ⟨hC, hrest⟩
    exact ⟨hs, fun s' ho => ih s' (hstep s o s' hs hC ho) (hrest s' ho)⟩

/-- And it holds where the run ends. -/
theorem run_of_permitted {I : σ → Prop} {C : σ → ο → Prop}
    (hstep : ∀ s o s', I s → C s o → step s o = some s' → I s') :
    ∀ (os : List ο) (s s' : σ), I s → Permitted step C s os → run step s os = some s' → I s' := by
  intro os
  induction os with
  | nil =>
    rintro s s' hs _ hrun
    cases hrun
    exact hs
  | cons o os ih =>
    rintro s s' hs ⟨hC, hrest⟩ hrun
    rw [run_cons] at hrun
    obtain ⟨t, ht, hrun⟩ := Option.bind_eq_some_iff.1 hrun
    exact ih t s' (hstep s o t hs hC ht) (hrest t ht) hrun

/-- **Rule for what a restricted step does.**  What holds of every step that meets the condition in a
state that keeps the invariant holds of every step of a run of such steps. -/
theorem allSteps_of_permitted {I : σ → Prop} {C D : σ → ο → Prop}
    (hstep : ∀ s o s', I s → C s o → step s o = some s' → I s' ∧ D s o) :
    ∀ (os : List ο) (s : σ), I s → Permitted step C s os → AllSteps step D s os := by
  intro os
  induction os with
  | nil => exact fun _ _ _ => trivial
  | cons o os ih =>
    rintro s hs ⟨hC, hrest⟩ s' ho
    obtain ⟨hs', hD⟩ := hstep s o s' hs hC ho
    exact ⟨hD, ih s' hs' (hrest s' ho)⟩

/-- **Progress rule.**  If short of its goal a state that keeps the invariant can always take some
operations of a kind that decrease a measure, then by such operations it can reach the goal. -/
theorem run_progress {I G : σ → Prop} {A : ο → Prop} (μ : σ → ℕ)
    (hstep : ∀ s, I s → ¬ G s →
      ∃ os s', (∀ o ∈ os, A o) ∧ run step s os = some s' ∧ I s' ∧ μ s' < μ s) :
    ∀ s, I s → ∃ os s', (∀ o ∈ os, A o) ∧ run step s os = some s' ∧ I s' ∧ G s' := by
  intro s
  induction hn : μ s using Nat.strong_induction_on generalizing s with
  | _ n ih =>
    intro hs
    by_cases hG : G s
    · exact ⟨[], s, (fun o ho => by cases ho), rfl, hs, hG⟩
    · obtain ⟨os, t, hos, hrun, ht, hlt⟩ := hstep s hs hG
      obtain ⟨os', s', hos', hrun', hs', hG'⟩ := ih (μ t) (hn ▸ hlt) t rfl ht
      refine ⟨os ++ os', s', fun o ho => ?_, ?_, hs', hG'⟩
      · rcases List.mem_append.1 ho with ho | ho
        · exact hos o ho
        · exact hos' o ho
      · rw [run_append, hrun]
        exact hrun'

/-- A condition that operations meet in every state. -/
theorem AllSteps.of_forall {C : σ → ο → Prop} :
    ∀ {os : List ο} (s : σ), (∀ o ∈ os, ∀ s, C s o) → AllSteps step C s os := by
  intro os
  induction os with
  | nil => exact fun _ _ => trivial
  | cons o os ih =>
    intro s h s' _
    obtain ⟨ho, hos⟩ := List.forall_mem_cons.1 h
    exact ⟨ho s, ih s' hos⟩

theorem AllStates.start {P : σ → Prop} {s : σ} {os : List ο} (h : AllStates step P s os) : P s := by
  cases os with
  | nil => exact h
  | cons o os => exact h.1

theorem AllStates.imp {P Q : σ → Prop} (hPQ : ∀ s, P s → Q s) {s : σ} {os : List ο}
    (h : AllStates step P s os) : AllStates step Q s os := by
  induction os generalizing s with
  | nil => exact hPQ s h
  | cons o os ih => exact ⟨hPQ s h.1, fun s' hs' => ih (h.2 s' hs')⟩

/-- A property all along a run holds where each part of the run ends. -/
theorem AllStates.of_run {P : σ → Prop} (xs ys : List ο) {s s' : σ}
    (h : AllStates step P s (xs ++ ys)) (hr : run step s xs = some s') : P s' := by
  induction xs generalizing s with
  | nil =>
    cases hr
    exact h.start
  | cons o os ih =>
    rw [run_cons] at hr
    cases ho : step s o with
    | none => rw [ho] at hr; cases hr
    | some t =>
      rw [ho] at hr
      exact ih (h.2 t ho) hr

/-- A condition all along a run is met by the step after each part of the run. -/
theorem AllSteps.of_run {C : σ → ο → Prop} (xs : List ο) {o : ο} {s t s' : σ}
    (h : AllSteps step C s (xs ++ [o])) (hr : run step s xs = some t)
    (hrun : run step s (xs ++ [o]) = some s') : C t o := by
  rw [run_append, hr] at hrun
  obtain ⟨u, hu, -⟩ := Option.bind_eq_some_iff.1 (show (step t o).bind _ = some s' from hrun)
  clear hrun
  induction xs generalizing s with
  | nil =>
    cases hr
    exact (h u hu).1
  | cons p ps ih =>
    rw [run_cons] at hr
    cases hp : step s p with
    | none => rw [hp] at hr; cases hr
    | some u =>
      rw [hp] at hr
      exact ih (h u hp).2 hr

/-- **Rule for an invariant that looks ahead.**  What holds of a state and of the operations that are
still to come, and is kept by every step, gives its property all along the run. -/
theorem allStates_of_ahead {P : σ → Prop} (I : σ → List ο → Prop) (hP : ∀ s os, I s os → P s)
    (hstep : ∀ s o os s', I s (o :: os) → step s o = some s' → I s' os) :
    ∀ (os : List ο) (s : σ), I s os → AllStates step P s os := by
  intro os
  induction os with
  | nil => exact fun s hs => hP s [] hs
  | cons o os ih => exact fun s hs => ⟨hP s (o :: os) hs, fun s' ho => ih s' (hstep s o os s' hs ho)⟩

/-- **Exact condition rule.**  With an invariant `I` that gives `P`: if steps meeting `C` keep `I`
and steps missing `C` break `P`, then `P` holds all along a run exactly when `C` does.  Only the
operations of the run, those that meet `D`, matter. -/
theorem allStates_iff_allSteps_of {I P : σ → Prop} {C : σ → ο → Prop} {D : ο → Prop}
    (hP : ∀ s, I s → P s)
    (hgood : ∀ s o s', I s → D o → C s o → step s o = some s' → I s')
    (hbad : ∀ s o s', I s → D o → ¬ C s o → step s o = some s' → ¬ P s') :
    ∀ (os : List ο) (s : σ), (∀ o ∈ os, D o) → I s →
      (AllStates step P s os ↔ AllSteps step C s os) := by
  intro os
  induction os with
  | nil =>
    intro s _ hs
    exact ⟨fun _ => trivial, fun _ => hP s hs⟩
  | cons o os ih =>
    intro s hD hs
    obtain ⟨ho, hos⟩ := List.forall_mem_cons.1 hD
    constructor
    · intro h s' hstep
      have hC : C s o := by
        by_contra hC
        exact hbad s o s' hs ho hC hstep (h.2 s' hstep).start
      exact ⟨hC, (ih s' hos (hgood s o s' hs ho hC hstep)).1 (h.2 s' hstep)⟩
    · intro h
      refine ⟨hP s hs, fun s' hstep => ?_⟩
      obtain ⟨hC, hrest⟩ := h s' hstep
      exact (ih s' hos (hgood s o s' hs ho hC hstep)).2 hrest

/-- The same where every operation matters. -/
theorem allStates_iff_allSteps {I P : σ → Prop} {C : σ → ο → Prop} (hP : ∀ s, I s → P s)
    (hgood : ∀ s o s', I s → C s o → step s o = some s' → I s')
    (hbad : ∀ s o s', I s → ¬ C s o → step s o = some s' → ¬ P s') :
    ∀ (os : List ο) (s : σ), I s → (AllStates step P s os ↔ AllSteps step C s os) :=
  fun os s => allStates_iff_allSteps_of (D := fun _ => True) hP
    (fun s o s' hs _ => hgood s o s' hs) (fun s o s' hs _ => hbad s o s' hs) os s fun _ _ => trivial

/-- **Exact condition rule for restricted runs.**  Like `allStates_iff_allSteps`, for runs whose steps
all meet `E`. -/
theorem allStates_iff_of_permitted {I P : σ → Prop} {C E : σ → ο → Prop} (hP : ∀ s, I s → P s)
    (hgood : ∀ s o s', I s → E s o → C s o → step s o = some s' → I s')
    (hbad : ∀ s o s', I s → E s o → ¬ C s o → step s o = some s' → ¬ P s') :
    ∀ (os : List ο) (s : σ), I s → Permitted step E s os →
      (AllStates step P s os ↔ AllSteps step C s os) := by
  intro os
  induction os with
  | nil => exact fun s hs _ => ⟨fun _ => trivial, fun _ => hP s hs⟩
  | cons o os ih =>
    rintro s hs ⟨hE, hrest⟩
    constructor
    · intro h s' hstep
      have hC : C s o := by
        by_contra hC
        exact hbad s o s' hs hE hC hstep (h.2 s' hstep).start
      exact ⟨hC, (ih s' (hgood s o s' hs hE hC hstep) (hrest s' hstep)).1 (h.2 s' hstep)⟩
    · intro h
      refine ⟨hP s hs, fun s' hstep => ?_⟩
      obtain ⟨hC, hlater⟩ := h s' hstep
      exact (ih s' (hgood s o s' hs hE hC hstep) (hrest s' hstep)).2 hlater

/-- **Rule for a step that cannot be taken back.**  If a step that misses `C` leads to `L`, and `L` is
never left, then `L` holds after every run with such a step in it. -/
theorem of_not_allSteps {I L : σ → Prop} {C E : σ → ο → Prop}
    (hI : ∀ s o s', I s → E s o → step s o = some s' → I s')
    (hbad : ∀ s o s', I s → E s o → ¬ C s o → step s o = some s' → L s')
    (hkeep : ∀ s o s', I s → L s → E s o → step s o = some s' → L s') :
    ∀ (os : List ο) (s s' : σ), I s → Permitted step E s os → run step s os = some s' →
      L s ∨ ¬ AllSteps step C s os → L s' := by
  intro os
  induction os with
  | nil =>
    rintro s s' _ _ hrun (hL | hno)
    · cases hrun
      exact hL
    · exact absurd trivial hno
  | cons o os ih =>
    rintro s s' hs ⟨hE, hrest⟩ hrun hL
    rw [run_cons] at hrun
    cases ho : step s o with
    | none => rw [ho] at hrun; cases hrun
    | some t =>
      rw [ho] at hrun
      refine ih t s' (hI s o t hs hE ho) (hrest t ho) hrun ?_
      rcases hL with hL | hno
      · exact Or.inl (hkeep s o t hs hL hE ho)
      · by_cases hC : C s o
        · right
          intro hsteps
          apply hno
          intro t' ht'
          rw [ho] at ht'
          cases ht'
          exact ⟨hC, hsteps⟩
        · exact Or.inl (hbad s o t hs hE hC ho)

theorem permitted_append {C : σ → ο → Prop} (xs ys : List ο) {s s' : σ}
    (h : Permitted step C s (xs ++ ys)) (hr : run step s xs = some s') : Permitted step C s' ys := by
  induction xs generalizing s with
  | nil =>
    cases hr
    exact h
  | cons o os ih =>
    rw [run_cons] at hr
    cases ho : step s o with
    | none => rw [ho] at hr; cases hr
    | some t =>
      rw [ho] at hr
      exact ih (h.2 t ho) hr

theorem Permitted.left {C : σ → ο → Prop} (xs : List ο) {ys : List ο} {s : σ}
    (h : Permitted step C s (xs ++ ys)) : Permitted step C s xs := by
  induction xs generalizing s with
  | nil => exact trivial
  | cons o os ih => exact ⟨h.1, fun s' hs' => ih (h.2 s' hs')⟩

end Run
