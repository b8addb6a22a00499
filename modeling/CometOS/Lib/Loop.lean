import Mathlib.Tactic

/-!
# Loops

Two loop forms.  `forUp` is a counting loop whose number of turns is known on entry, and `forUpM` one
whose body may fail to return.  `whileLoop` tests a condition each turn; it is given a bound on the
number of turns, and `none` is a loop that is still running then.  Its body may fail too.  Each form comes
with its invariant rule, and the rule for `whileLoop` asks for a decreasing measure and gives termination.
-/

namespace Loop

variable {σ : Type*}

/-! ### Counting loops -/

/-- `for (i = lo; i < lo + n; i++) s = body i s`. -/
def forUp (body : ℕ → σ → σ) : ℕ → ℕ → σ → σ
  | _, 0, s => s
  | lo, n + 1, s => forUp body (lo + 1) n (body lo s)

theorem forUp_succ (body : ℕ → σ → σ) (lo n : ℕ) (s : σ) :
    forUp body lo (n + 1) s = forUp body (lo + 1) n (body lo s) := rfl

/-- **Invariant rule.**  What each turn carries from `i` to `i + 1` holds at the end. -/
theorem forUp_inv (I : ℕ → σ → Prop) {body : ℕ → σ → σ} :
    ∀ (n lo : ℕ) (s : σ), I lo s →
      (∀ i s, lo ≤ i → i < lo + n → I i s → I (i + 1) (body i s)) → I (lo + n) (forUp body lo n s) := by
  intro n
  induction n with
  | zero => intro lo s h0 _; exact h0
  | succ n ih =>
    intro lo s h0 hstep
    rw [forUp_succ, show lo + (n + 1) = lo + 1 + n by omega]
    apply ih (lo + 1) (body lo s) (hstep lo s (le_refl lo) (by omega) h0)
    intro i s' hlo hhi
    exact hstep i s' (by omega) (by omega)

/-- The same with a body that may fail. -/
def forUpM (body : ℕ → σ → Option σ) : ℕ → ℕ → σ → Option σ
  | _, 0, s => some s
  | lo, n + 1, s => (body lo s).bind (forUpM body (lo + 1) n)

theorem forUpM_succ (body : ℕ → σ → Option σ) (lo n : ℕ) (s : σ) :
    forUpM body lo (n + 1) s = (body lo s).bind (forUpM body (lo + 1) n) := rfl

/-- **Invariant rule.**  If every turn completes and carries the invariant on, the loop completes. -/
theorem forUpM_spec (I : ℕ → σ → Prop) {body : ℕ → σ → Option σ} :
    ∀ (n lo : ℕ) (s : σ), I lo s →
      (∀ i s, lo ≤ i → i < lo + n → I i s → ∃ s', body i s = some s' ∧ I (i + 1) s') →
      ∃ s', forUpM body lo n s = some s' ∧ I (lo + n) s' := by
  intro n
  induction n with
  | zero => exact fun lo s h0 _ => ⟨s, rfl, h0⟩
  | succ n ih =>
    intro lo s h0 hstep
    obtain ⟨t, ht, hIt⟩ := hstep lo s (le_refl lo) (by omega) h0
    rw [forUpM_succ, ht, Option.bind_some, show lo + (n + 1) = lo + 1 + n by omega]
    exact ih (lo + 1) t hIt fun i s' hlo hhi => hstep i s' (by omega) (by omega)

/-- **Failure rule.**  If the turns before one complete and carry the invariant on, and that one fails,
so does the loop. -/
theorem forUpM_none (I : ℕ → σ → Prop) {body : ℕ → σ → Option σ} {j : ℕ}
    (hfail : ∀ s, I j s → body j s = none) :
    ∀ (n lo : ℕ) (s : σ), I lo s → lo ≤ j → j < lo + n →
      (∀ i s, lo ≤ i → i < j → I i s → ∃ s', body i s = some s' ∧ I (i + 1) s') →
      forUpM body lo n s = none := by
  intro n
  induction n with
  | zero => intro lo s _ hle hlt; omega
  | succ n ih =>
    intro lo s h0 hle hlt hstep
    rw [forUpM_succ]
    rcases Nat.lt_or_eq_of_le hle with hlt' | rfl
    · obtain ⟨t, ht, hIt⟩ := hstep lo s (le_refl lo) hlt' h0
      rw [ht, Option.bind_some]
      exact ih (lo + 1) t hIt hlt' (by omega) fun i s' hlo hhi => hstep i s' (by omega) hhi
    · rw [hfail s h0, Option.bind_none]

/-- **Simulation rule.**  If every turn follows a turn of a loop that cannot fail, so does the loop. -/
theorem forUpM_sim {τ : Type*} (R : σ → τ → Prop) {g : ℕ → σ → Option σ} {f : ℕ → τ → τ} :
    ∀ (n lo : ℕ) (s : σ) (t : τ), R s t →
      (∀ i s t, lo ≤ i → i < lo + n → R s t → ∃ s', g i s = some s' ∧ R s' (f i t)) →
      ∃ s', forUpM g lo n s = some s' ∧ R s' (forUp f lo n t) := by
  intro n
  induction n with
  | zero => exact fun lo s t h0 _ => ⟨s, rfl, h0⟩
  | succ n ih =>
    intro lo s t h0 hstep
    obtain ⟨s', hs', hR⟩ := hstep lo s t (le_refl lo) (by omega) h0
    rw [forUpM_succ, hs', Option.bind_some, forUp_succ]
    exact ih (lo + 1) s' (f lo t) hR fun i s t hlo hhi => hstep i s t (by omega) (by omega)

/-! ### Conditional loops -/

/-- `while (cond s) s = body s`, for at most the given number of tests. -/
def whileLoop (cond : σ → Bool) (body : σ → Option σ) : ℕ → σ → Option σ
  | 0, _ => none
  | n + 1, s => if cond s then (body s).bind (whileLoop cond body n) else some s

theorem whileLoop_succ (cond : σ → Bool) (body : σ → Option σ) (n : ℕ) (s : σ) :
    whileLoop cond body (n + 1) s =
      if cond s then (body s).bind (whileLoop cond body n) else some s := rfl

/-- A loop whose test fails at once. -/
theorem whileLoop_done {cond : σ → Bool} {body : σ → Option σ} {n : ℕ} {s : σ} (hn : 0 < n)
    (h : cond s = false) : whileLoop cond body n s = some s := by
  obtain ⟨n, rfl⟩ : ∃ k, n = k + 1 := ⟨n - 1, by omega⟩
  rw [whileLoop_succ, h]
  rfl

/-- **Total correctness rule.**  An invariant kept by every turn, with a measure each turn
decreases, holds when the loop is left, and the loop is left within the bound. -/
theorem whileLoop_spec (I : σ → Prop) (μ : σ → ℕ) {c : σ → Bool} {f : σ → Option σ}
    (hstep : ∀ s, I s → c s = true → ∃ s', f s = some s' ∧ I s' ∧ μ s' < μ s) :
    ∀ (n : ℕ) (s : σ), I s → μ s < n →
      ∃ s', whileLoop c f n s = some s' ∧ I s' ∧ c s' = false := by
  intro n
  induction n with
  | zero => intro s _ hn; omega
  | succ n ih =>
    intro s hs hn
    rw [whileLoop_succ]
    by_cases hc : c s = true
    · obtain ⟨s', hb, hs', hlt⟩ := hstep s hs hc
      rw [if_pos hc, hb]
      exact ih s' hs' (by omega)
    · exact ⟨s, by rw [if_neg hc], hs, by simpa using hc⟩

/-- **Partial correctness rule.**  Whatever every turn keeps holds if the loop is left. -/
theorem whileLoop_inv (I : σ → Prop) {cond : σ → Bool} {body : σ → Option σ}
    (hstep : ∀ s s', I s → cond s = true → body s = some s' → I s') :
    ∀ (n : ℕ) (s s' : σ), I s → whileLoop cond body n s = some s' → I s' ∧ cond s' = false := by
  intro n
  induction n with
  | zero => intro s s' _ h; cases h
  | succ n ih =>
    intro s s' hs h
    rw [whileLoop_succ] at h
    by_cases hc : cond s = true
    · rw [if_pos hc] at h
      cases hb : body s with
      | none => rw [hb] at h; cases h
      | some t =>
        rw [hb] at h
        exact ih t s' (hstep s t hs hc hb) h
    · rw [if_neg hc] at h
      cases h
      exact ⟨hs, by simpa using hc⟩

/-- A loop that is left is left alike with a larger bound. -/
theorem whileLoop_mono {cond : σ → Bool} {body : σ → Option σ} :
    ∀ (n m : ℕ) (s s' : σ), whileLoop cond body n s = some s' → n ≤ m →
      whileLoop cond body m s = some s' := by
  intro n
  induction n with
  | zero => intro m s s' h _; cases h
  | succ n ih =>
    intro m s s' h hle
    obtain ⟨m, rfl⟩ : ∃ k, m = k + 1 := ⟨m - 1, by omega⟩
    rw [whileLoop_succ] at h ⊢
    by_cases hc : cond s = true
    · rw [if_pos hc] at h ⊢
      obtain ⟨t, hb, ht⟩ := Option.bind_eq_some_iff.1 h
      rw [hb, Option.bind_some]
      exact ih m t s' ht (by omega)
    · rw [if_neg hc] at h ⊢
      exact h

/-- **Simulation rule.**  If the tests agree and every turn follows a turn of the other loop, a loop that
is left is followed to its end. -/
theorem whileLoop_sim {τ : Type*} (R : σ → τ → Prop) {c : σ → Bool} {c' : τ → Bool}
    {body : σ → Option σ} {body' : τ → Option τ} (hcond : ∀ s t, R s t → c s = c' t)
    (hstep : ∀ s t u, R s t → c' t = true → body' t = some u → ∃ s', body s = some s' ∧ R s' u) :
    ∀ (n : ℕ) (s : σ) (t : τ), R s t → ∀ u, whileLoop c' body' n t = some u →
      ∃ s', whileLoop c body n s = some s' ∧ R s' u := by
  intro n
  induction n with
  | zero => intro s t _ u h; cases h
  | succ n ih =>
    intro s t hR u h
    rw [whileLoop_succ] at h
    rw [whileLoop_succ, hcond s t hR]
    by_cases hc : c' t = true
    · rw [if_pos hc] at h ⊢
      obtain ⟨t', ht', h⟩ := Option.bind_eq_some_iff.1 h
      obtain ⟨s', hs', hR'⟩ := hstep s t t' hR hc ht'
      rw [hs', Option.bind_some]
      exact ih s' t' hR' u h
    · rw [if_neg hc] at h ⊢
      exact ⟨s, rfl, Option.some.inj h ▸ hR⟩

/-- A loop is left in the first state that fails the test. -/
theorem whileLoop_first {c : σ → Bool} {f : σ → σ} :
    ∀ (n : ℕ) (s : σ), (∀ k < n, c (f^[k] s) = true) → c (f^[n] s) = false →
      ∀ fuel, n < fuel → whileLoop c (fun s => some (f s)) fuel s = some (f^[n] s) := by
  intro n
  induction n with
  | zero =>
    intro s _ hend fuel hfuel
    exact whileLoop_done hfuel hend
  | succ n ih =>
    intro s hbefore hend fuel hfuel
    obtain ⟨fuel, rfl⟩ : ∃ k, fuel = k + 1 := ⟨fuel - 1, by omega⟩
    have hfirst : c s = true := hbefore 0 (by omega)
    rw [whileLoop_succ, if_pos hfirst, Option.bind_some, Function.iterate_succ_apply]
    refine ih (f s) (fun k hk => ?_) ?_ fuel (by omega)
    · rw [← Function.iterate_succ_apply]
      exact hbefore (k + 1) (by omega)
    · rw [← Function.iterate_succ_apply]
      exact hend

/-- And it is left in no other state. -/
theorem whileLoop_eq_some {c : σ → Bool} {f : σ → σ} :
    ∀ (fuel : ℕ) (s s' : σ), whileLoop c (fun s => some (f s)) fuel s = some s' →
      ∃ n, (∀ k < n, c (f^[k] s) = true) ∧ c (f^[n] s) = false ∧ s' = f^[n] s := by
  intro fuel
  induction fuel with
  | zero => intro s s' h; cases h
  | succ fuel ih =>
    intro s s' h
    rw [whileLoop_succ] at h
    by_cases hc : c s = true
    · rw [if_pos hc, Option.bind_some] at h
      obtain ⟨n, hbefore, hend, hs'⟩ := ih (f s) s' h
      refine ⟨n + 1, fun k hk => ?_, ?_, ?_⟩
      · cases k with
        | zero => exact hc
        | succ k =>
          rw [Function.iterate_succ_apply]
          exact hbefore k (by omega)
      · rw [Function.iterate_succ_apply]
        exact hend
      · rw [Function.iterate_succ_apply]
        exact hs'
    · rw [if_neg hc] at h
      exact ⟨0, fun k hk => absurd hk (Nat.not_lt_zero k), by simpa using hc, (Option.some.inj h).symm⟩

/-- Two events come first at the same time if up to the first one they come together. -/
theorem first_iff {A B : ℕ → Prop} :
    (∀ n, (B n ∧ ∀ k < n, ¬ B k) ↔ A n ∧ ∀ k < n, ¬ A k) ↔
      ∀ n, (∀ k < n, ¬ A k) → (A n ↔ B n) := by
  constructor
  · intro h n hn
    constructor
    · exact fun hA => ((h n).2 ⟨hA, hn⟩).1
    · intro hB
      classical
      have hfirst := (h (Nat.find ⟨n, hB⟩)).1
        ⟨Nat.find_spec ⟨n, hB⟩, fun k hk => Nat.find_min ⟨n, hB⟩ hk⟩
      rcases Nat.lt_or_eq_of_le (Nat.find_min' ⟨n, hB⟩ hB) with hlt | heq
      · exact absurd hfirst.1 (hn _ hlt)
      · rw [heq] at hfirst
        exact hfirst.1
  · intro h n
    constructor
    · rintro ⟨hB, hbefore⟩
      have hA : ∀ k < n, ¬ A k := by
        intro k
        induction k using Nat.strong_induction_on with
        | _ k ih =>
          intro hk hAk
          exact hbefore k hk ((h k fun j hj => ih j hj (hj.trans hk)).1 hAk)
      exact ⟨(h n hA).2 hB, hA⟩
    · rintro ⟨hA, hbefore⟩
      refine ⟨(h n hbefore).1 hA, fun k hk hB => hbefore k hk ?_⟩
      exact (h k fun j hj => hbefore j (hj.trans hk)).2 hB

/-- A loop that carries a value it never changes. -/
theorem whileLoop_snd {τ : Type*} {cond : σ × τ → Bool} (next : τ → σ → σ) (t : τ) :
    ∀ (n : ℕ) (s : σ), whileLoop cond (fun p => some (next p.2 p.1, p.2)) n (s, t) =
      (whileLoop (fun s => cond (s, t)) (fun s => some (next t s)) n s).map fun s => (s, t) := by
  intro n
  induction n with
  | zero => intro s; rfl
  | succ n ih =>
    intro s
    rw [whileLoop_succ, whileLoop_succ, Option.bind_some, Option.bind_some, ih]
    split
    · rfl
    · rfl

end Loop
