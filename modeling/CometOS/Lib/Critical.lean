import CometOS.Lib.Loop

/-!
# Critical sections under an interrupt flag

A program works on a state of type `σ` whose parts are named by cells of type `κ`.  It may read and
write cells and set and clear the interrupt flag; every access is put on record with the flag at that
moment.  A program that has used up the turns of a loop returns nothing, but what it did until then
stays on record.

`Guarded entry exit p f` is the judgement about such a program: started with the flag at `entry`, it
computes what the function `f` says, makes each of its accesses with the flag clear, and returns
with the flag at `exit`.  It has one rule for each way to build a program.
-/

namespace Critical

open Loop

/-- The state, the interrupt flag and the accesses made so far, the last one first. -/
structure Machine (σ κ : Type) where
  state : σ
  interrupts : Bool
  accesses : List (κ × Bool)

/-- From a machine, what is returned, if anything is, and the machine that is left. -/
def Prog (σ κ α : Type) := Machine σ κ → Option α × Machine σ κ

variable {σ κ α β : Type}

namespace Prog

/-- `a`, with nothing done. -/
def ret (a : α) : Prog σ κ α := fun m => (some a, m)

/-- `p`, then `k` on what it returns. -/
def andThen (p : Prog σ κ α) (k : α → Prog σ κ β) : Prog σ κ β := fun m =>
  match p m with
  | (some a, m') => k a m'
  | (none, m') => (none, m')

instance : Monad (Prog σ κ) where
  pure := ret
  bind := andThen

/-- The cell `c` is read. -/
def read (c : κ) (f : σ → α) : Prog σ κ α := fun m =>
  (some (f m.state), { m with accesses := (c, m.interrupts) :: m.accesses })

/-- The cell `c` is written. -/
def write (c : κ) (f : σ → σ) : Prog σ κ Unit := fun m =>
  (some (), { m with state := f m.state, accesses := (c, m.interrupts) :: m.accesses })

/-- A change of the state that does not go on record. -/
def modify (f : σ → σ) : Prog σ κ Unit := fun m => (some (), { m with state := f m.state })

/-- Interrupts off. -/
def cli : Prog σ κ Unit := fun m => (some (), { m with interrupts := false })

/-- Interrupts on. -/
def sti : Prog σ κ Unit := fun m => (some (), { m with interrupts := true })

/-- `if (c) p`. -/
def when (c : Prop) [Decidable c] (p : Prog σ κ Unit) : Prog σ κ Unit := if c then p else pure ()

/-- `for (i = lo; i < lo + n; i++) body(i)`. -/
def forUp (body : ℕ → Prog σ κ Unit) : ℕ → ℕ → Prog σ κ Unit
  | _, 0 => pure ()
  | lo, n + 1 => do
    body lo
    forUp body (lo + 1) n

/-- `while (cond(a)) a = body(a)`, for at most the given number of tests. -/
def whileLoop (cond : α → Prog σ κ Bool) (body : α → Prog σ κ α) : ℕ → α → Prog σ κ α
  | 0, _ => fun m => (none, m)
  | n + 1, a => do
    let c ← cond a
    if c then do
      let a ← body a
      whileLoop cond body n a
    else pure a

end Prog

/-- From a flag at `entry`, `p` does what `f` says, makes no access with the flag set, and returns
with the flag at `exit`. -/
def Guarded (entry exit : Bool) (p : Prog σ κ α) (f : σ → Option (α × σ)) : Prop :=
  ∀ m : Machine σ κ, m.interrupts = entry →
    (∃ log, (p m).2.accesses = log ++ m.accesses ∧ ∀ e ∈ log, e.2 = false) ∧
    (p m).1 = (f m.state).map Prod.fst ∧
    ∀ r, f m.state = some r → (p m).2.state = r.2 ∧ (p m).2.interrupts = exit

/-! ### What the judgement gives -/

section Consequences

variable {entry exit : Bool} {p : Prog σ κ α} {f : σ → Option (α × σ)}

/-- Started with nothing on record, it leaves only accesses with the flag clear there. -/
theorem Guarded.clear (h : Guarded entry exit p f) (s : σ) :
    ∀ e ∈ (p ⟨s, entry, []⟩).2.accesses, e.2 = false := by
  obtain ⟨⟨log, hlog, hclear⟩, _⟩ := h ⟨s, entry, []⟩ rfl
  rw [hlog, List.append_nil]
  exact hclear

/-- The flag on return. -/
theorem Guarded.flag (h : Guarded entry exit p f) {s : σ} {a : α}
    (ha : (p ⟨s, entry, []⟩).1 = some a) : (p ⟨s, entry, []⟩).2.interrupts = exit := by
  obtain ⟨_, hval, hstate⟩ := h ⟨s, entry, []⟩ rfl
  rw [hval, Option.map_eq_some_iff] at ha
  obtain ⟨r, hr, _⟩ := ha
  exact (hstate r hr).2

/-- It returns what the function gives, in the state the function gives. -/
theorem Guarded.computes (h : Guarded entry exit p f) (s : σ) :
    (p ⟨s, entry, []⟩).1 = (f s).map Prod.fst ∧
      ∀ r, f s = some r → (p ⟨s, entry, []⟩).2.state = r.2 := by
  obtain ⟨_, hval, hstate⟩ := h ⟨s, entry, []⟩ rfl
  exact ⟨hval, fun r hr => (hstate r hr).1⟩

end Consequences

/-! ### One rule for each construction -/

variable {entry mid exit : Bool} {p q : Prog σ κ α} {k : α → Prog σ κ β}
  {f f' : σ → Option (α × σ)} {g : α → σ → Option (β × σ)}

theorem Guarded.congr (h : Guarded entry exit p f) (hf : ∀ s, f s = f' s) :
    Guarded entry exit p f' := by
  obtain rfl := funext hf
  exact h

theorem Guarded.pure (a : α) :
    Guarded entry entry (pure a : Prog σ κ α) fun s => some (a, s) := by
  intro m hm
  refine ⟨⟨[], rfl, fun e he => by cases he⟩, rfl, fun r hr => ?_⟩
  obtain rfl := Option.some.inj hr
  exact ⟨rfl, hm⟩

theorem Guarded.bind (hp : Guarded entry mid p f) (hk : ∀ a, Guarded mid exit (k a) (g a)) :
    Guarded entry exit (p >>= k) fun s => (f s).bind fun r => g r.1 r.2 := by
  intro m hm
  obtain ⟨⟨log, hlog, hclear⟩, hval, hstate⟩ := hp m hm
  have hrun : (p >>= k) m = match p m with
    | (some a, m') => k a m'
    | (none, m') => (none, m') := rfl
  rw [hrun]
  rcases hpm : p m with ⟨_ | a, m'⟩
  · rw [hpm] at hlog hval
    have hf : f m.state = none := by
      cases hf : f m.state with
      | none => rfl
      | some r => rw [hf] at hval; cases hval
    simp only [hf]
    exact ⟨⟨log, hlog, hclear⟩, rfl, fun r hr => by cases hr⟩
  · rw [hpm] at hlog hval hstate
    cases hf : f m.state with
    | none => rw [hf] at hval; cases hval
    | some r =>
      rw [hf] at hval
      obtain rfl : a = r.1 := Option.some.inj hval
      obtain ⟨hs, hi⟩ := hstate r hf
      obtain ⟨⟨log', hlog', hclear'⟩, hval', hstate'⟩ := hk r.1 m' hi
      simp only [show m'.state = r.2 from hs] at hval' hstate'
      simp only [hf, Option.bind_some]
      refine ⟨⟨log' ++ log, ?_, fun e he => ?_⟩, hval', hstate'⟩
      · rw [hlog', hlog, List.append_assoc]
      · rcases List.mem_append.1 he with he | he
        · exact hclear' e he
        · exact hclear e he

theorem Guarded.read (c : κ) (f : σ → α) :
    Guarded false false (Prog.read c f) fun s => some (f s, s) := by
  intro m hm
  refine ⟨⟨[(c, m.interrupts)], rfl, fun e he => ?_⟩, rfl, fun r hr => ?_⟩
  · obtain rfl := List.mem_singleton.1 he
    exact hm
  · obtain rfl := Option.some.inj hr
    exact ⟨rfl, hm⟩

theorem Guarded.write (c : κ) (f : σ → σ) :
    Guarded false false (Prog.write c f) fun s => some ((), f s) := by
  intro m hm
  refine ⟨⟨[(c, m.interrupts)], rfl, fun e he => ?_⟩, rfl, fun r hr => ?_⟩
  · obtain rfl := List.mem_singleton.1 he
    exact hm
  · obtain rfl := Option.some.inj hr
    exact ⟨rfl, hm⟩

theorem Guarded.modify (f : σ → σ) :
    Guarded entry entry (Prog.modify f : Prog σ κ Unit) fun s => some ((), f s) := by
  intro m hm
  refine ⟨⟨[], rfl, fun e he => by cases he⟩, rfl, fun r hr => ?_⟩
  obtain rfl := Option.some.inj hr
  exact ⟨rfl, hm⟩

theorem Guarded.cli : Guarded entry false (Prog.cli : Prog σ κ Unit) fun s => some ((), s) := by
  intro m _
  refine ⟨⟨[], rfl, fun e he => by cases he⟩, rfl, fun r hr => ?_⟩
  obtain rfl := Option.some.inj hr
  exact ⟨rfl, rfl⟩

theorem Guarded.sti : Guarded entry true (Prog.sti : Prog σ κ Unit) fun s => some ((), s) := by
  intro m _
  refine ⟨⟨[], rfl, fun e he => by cases he⟩, rfl, fun r hr => ?_⟩
  obtain rfl := Option.some.inj hr
  exact ⟨rfl, rfl⟩

theorem Guarded.ite {c : Prop} [Decidable c] (hp : c → Guarded entry exit p f)
    (hq : ¬ c → Guarded entry exit q f') :
    Guarded entry exit (if c then p else q) fun s => if c then f s else f' s := by
  by_cases hc : c
  · simp only [if_pos hc]
    exact hp hc
  · simp only [if_neg hc]
    exact hq hc

/-! ### Steps that always return -/

section Total

variable {a : σ → α} {t : σ → σ} {pu : Prog σ κ Unit}

/-- After a step that always returns. -/
theorem Guarded.andThen (hp : Guarded entry mid p fun s => some (a s, t s))
    (hk : ∀ x, Guarded mid exit (k x) (g x)) :
    Guarded entry exit (p >>= k) fun s => g (a s) (t s) :=
  (hp.bind hk).congr fun _ => rfl

/-- The value and the state, told apart. -/
theorem Guarded.pair {r : σ → α × σ} (h : Guarded entry exit p fun s => some (r s)) :
    Guarded entry exit p fun s => some ((r s).1, (r s).2) := h

theorem Guarded.when {c : Prop} [Decidable c] (hp : Guarded entry entry pu fun s => some ((), t s)) :
    Guarded entry entry (Prog.when c pu) fun s => some ((), if c then t s else s) := by
  refine ((Guarded.ite (fun _ => hp) fun _ => Guarded.pure ())).congr fun s => ?_
  split
  · rfl
  · rfl

theorem Guarded.forUp {body : ℕ → Prog σ κ Unit} {step : ℕ → σ → σ}
    (h : ∀ i, Guarded entry entry (body i) fun s => some ((), step i s)) :
    ∀ n lo, Guarded entry entry (Prog.forUp body lo n) fun s => some ((), Loop.forUp step lo n s) := by
  intro n
  induction n with
  | zero => intro lo; exact Guarded.pure ()
  | succ n ih => intro lo; exact (h lo).andThen fun _ => ih (lo + 1)

end Total

/-- **Loop rule.**  The loop computes the loop over what it tests and does, on pairs of the value it
carries and the state. -/
theorem Guarded.whileLoop {cond : α → Prog σ κ Bool} {body : α → Prog σ κ α} {c : α → σ → Bool}
    {b : α → σ → Option (α × σ)}
    (hcond : ∀ a, Guarded entry entry (cond a) fun s => some (c a s, s))
    (hbody : ∀ a, Guarded entry entry (body a) (b a)) :
    ∀ n a, Guarded entry entry (Prog.whileLoop cond body n a) fun s =>
      Loop.whileLoop (fun p => c p.1 p.2) (fun p => b p.1 p.2) n (a, s) := by
  intro n
  induction n with
  | zero =>
    intro a m _
    exact ⟨⟨[], rfl, fun e he => by cases he⟩, rfl, fun r hr => by cases hr⟩
  | succ n ih =>
    intro a
    refine ((hcond a).andThen fun x =>
      Guarded.ite (fun _ => (hbody a).bind ih) fun _ => Guarded.pure a).congr fun s => ?_
    rw [whileLoop_succ]

end Critical
