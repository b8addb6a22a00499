import CometOS.Lib.ByteMemory
import CometOS.Lib.Loop

/-!
# Programs that read memory

A program goes over a memory that it does not change, and each read it makes is on record.  It may
trap, and then it returns nothing; a loop is given a number of turns, and has returned nothing when
they are used up.

Two questions about a program are answered here one construction at a time: whether all its reads
are of bytes that satisfy a predicate (`Within`), and whether a loop is ever left (`Returns`).  The
loops are those whose turn, on a state that does not end them, is a function of the state.
-/

namespace Reader

open ByteMemory

/-- `size` bytes read at `addr`. -/
structure Access where
  addr : UInt32
  size : ℕ
  deriving DecidableEq

/-- From a memory, what is returned, if anything is, and the reads made. -/
def Prog (α : Type) := Mem → Option α × List Access

variable {α β σ : Type}

namespace Prog

/-- `a`, with nothing read. -/
def ret (a : α) : Prog α := fun _ => (some a, [])

/-- `p`, then `k` on what it returns. -/
def andThen (p : Prog α) (k : α → Prog β) : Prog β := fun m =>
  match p m with
  | (some a, log) => ((k a m).1, log ++ (k a m).2)
  | (none, log) => (none, log)

instance : Monad Prog where
  pure := ret
  bind := andThen

def load8 (a : UInt32) : Prog UInt8 := fun m => (some (m a), [⟨a, 1⟩])

def load16 (a : UInt32) : Prog UInt16 := fun m => (some (read16 m a), [⟨a, 2⟩])

def load32 (a : UInt32) : Prog UInt32 := fun m => (some (read32 m a), [⟨a, 4⟩])

/-- What is read in another place than the one on record. -/
def peek (f : Mem → Option α) : Prog α := fun m => (f m, [])

def trap : Prog α := fun _ => (none, [])

/-- A loop: a turn goes on with another state or leaves with a result. -/
def loop (step : σ → Prog (σ ⊕ β)) : ℕ → σ → Prog β
  | 0, _ => trap
  | n + 1, s => do
    match ← step s with
    | .inl t => loop step n t
    | .inr b => pure b

end Prog

open Prog

/-- `P` holds of each of the `n` bytes at `a`. -/
def Covered (P : UInt32 → Prop) (a : UInt32) (n : ℕ) : Prop := ∀ i < n, P (a + UInt32.ofNat i)

theorem covered_one {P : UInt32 → Prop} {a : UInt32} : Covered P a 1 ↔ P a := by
  unfold Covered
  constructor
  · intro h
    have h0 := h 0 (by omega)
    rwa [show UInt32.ofNat 0 = 0 from rfl, UInt32.add_zero] at h0
  · intro h i hi
    obtain rfl : i = 0 := by omega
    rwa [show UInt32.ofNat 0 = 0 from rfl, UInt32.add_zero]

/-- Every byte that `p` reads satisfies `P`. -/
def Within (P : UInt32 → Prop) (p : Prog α) (m : Mem) : Prop :=
  ∀ r ∈ (p m).2, Covered P r.addr r.size

/-! ### One construction at a time -/

section Rules

variable {P : UInt32 → Prop} {m : Mem} {p q : Prog α} {k : α → Prog β} {a : α}

theorem bind_val : ((p >>= k) m).1 = (p m).1.bind fun a => (k a m).1 := by
  show (andThen p k m).1 = _
  unfold andThen
  rcases p m with ⟨_ | a, log⟩
  · rfl
  · rfl

theorem load8_val (x : UInt32) : (load8 x m).1 = some (m x) := rfl

theorem load16_val (x : UInt32) : (load16 x m).1 = some (read16 m x) := rfl

theorem load32_val (x : UInt32) : (load32 x m).1 = some (read32 m x) := rfl

theorem pure_val (a : α) : ((pure a : Prog α) m).1 = some a := rfl

theorem peek_val (f : Mem → Option α) : (peek f m).1 = f m := rfl

theorem trap_val : ((trap : Prog α) m).1 = none := rfl

theorem ite_val {c : Prop} [Decidable c] :
    ((if c then p else q) m).1 = if c then (p m).1 else (q m).1 := by
  split
  · rfl
  · rfl

/-- The reads of a part that returns `a` come before those that follow. -/
theorem bind_log_of (ha : (p m).1 = some a) : ((p >>= k) m).2 = (p m).2 ++ (k a m).2 := by
  show (andThen p k m).2 = _
  unfold andThen
  rcases hp : p m with ⟨_ | b, log⟩
  · rw [hp] at ha
    cases ha
  · rw [hp] at ha
    obtain rfl := Option.some.inj ha
    rfl

theorem within_bind :
    Within P (p >>= k) m ↔ Within P p m ∧ ∀ a, (p m).1 = some a → Within P (k a) m := by
  show Within P (andThen p k) m ↔ _
  unfold Within andThen
  rcases p m with ⟨_ | a, log⟩
  · constructor
    · intro h
      exact ⟨h, fun a ha => by cases ha⟩
    · intro h
      exact h.1
  · constructor
    · intro h
      refine ⟨fun r hr => h r (List.mem_append_left _ hr), fun b hb r hr => ?_⟩
      obtain rfl := Option.some.inj hb
      exact h r (List.mem_append_right _ hr)
    · intro h r hr
      rcases List.mem_append.1 hr with hr | hr
      · exact h.1 r hr
      · exact h.2 a rfl r hr

/-- After a part that returns `a`. -/
theorem within_bind_of (ha : (p m).1 = some a) :
    Within P (p >>= k) m ↔ Within P p m ∧ Within P (k a) m := by
  rw [within_bind]
  constructor
  · intro h
    exact ⟨h.1, h.2 a ha⟩
  · intro h
    refine ⟨h.1, fun b hb => ?_⟩
    rw [ha] at hb
    obtain rfl := Option.some.inj hb
    exact h.2

theorem within_pure (a : α) : Within P (pure a : Prog α) m := by
  intro r hr
  cases hr

/-- What is done with the result reads nothing. -/
theorem within_map (f : α → β) : Within P (p >>= fun a => pure (f a)) m ↔ Within P p m := by
  rw [within_bind]
  exact and_iff_left fun a _ => within_pure (f a)

theorem within_trap : Within P (trap : Prog α) m := by
  intro r hr
  cases hr

theorem within_peek (f : Mem → Option α) : Within P (peek f) m := by
  intro r hr
  cases hr

theorem within_load8 (x : UInt32) : Within P (load8 x) m ↔ Covered P x 1 :=
  ⟨fun h => h ⟨x, 1⟩ (List.mem_singleton.2 rfl), fun h r hr => by
    obtain rfl := List.mem_singleton.1 hr
    exact h⟩

theorem within_load16 (x : UInt32) : Within P (load16 x) m ↔ Covered P x 2 :=
  ⟨fun h => h ⟨x, 2⟩ (List.mem_singleton.2 rfl), fun h r hr => by
    obtain rfl := List.mem_singleton.1 hr
    exact h⟩

theorem within_load32 (x : UInt32) : Within P (load32 x) m ↔ Covered P x 4 :=
  ⟨fun h => h ⟨x, 4⟩ (List.mem_singleton.2 rfl), fun h r hr => by
    obtain rfl := List.mem_singleton.1 hr
    exact h⟩

theorem within_load8_bind {k : UInt8 → Prog β} (x : UInt32) :
    Within P (load8 x >>= k) m ↔ Covered P x 1 ∧ Within P (k (m x)) m := by
  rw [within_bind_of (a := m x) rfl, within_load8]

theorem within_load16_bind {k : UInt16 → Prog β} (x : UInt32) :
    Within P (load16 x >>= k) m ↔ Covered P x 2 ∧ Within P (k (read16 m x)) m := by
  rw [within_bind_of (a := read16 m x) rfl, within_load16]

theorem within_load32_bind {k : UInt32 → Prog β} (x : UInt32) :
    Within P (load32 x >>= k) m ↔ Covered P x 4 ∧ Within P (k (read32 m x)) m := by
  rw [within_bind_of (a := read32 m x) rfl, within_load32]

theorem within_ite {c : Prop} [Decidable c] :
    Within P (if c then p else q) m ↔ (c → Within P p m) ∧ (¬ c → Within P q m) := by
  by_cases hc : c
  · rw [if_pos hc]
    exact ⟨fun h => ⟨fun _ => h, fun hn => absurd hc hn⟩, fun h => h.1 hc⟩
  · rw [if_neg hc]
    exact ⟨fun h => ⟨fun hp => absurd hp hc, fun _ => h⟩, fun h => h.2 hc⟩

/-- A fold stays within `P` if each of its steps does. -/
theorem within_foldlM {step : β → σ → Prog β} (xs : List σ)
    (h : ∀ x ∈ xs, ∀ b, Within P (step b x) m) (b : β) : Within P (xs.foldlM step b) m := by
  induction xs generalizing b with
  | nil => exact within_pure b
  | cons x xs ih =>
    rw [List.foldlM_cons, within_bind]
    exact ⟨h x List.mem_cons_self b, fun b' _ => ih (fun y hy => h y (List.mem_cons_of_mem x hy)) b'⟩

end Rules

/-! ### Loops -/

/-- The program returns, given enough turns. -/
def Returns (p : ℕ → Prog α) (m : Mem) : Prop := ∃ n, (p n m).1 ≠ none

section Returns

variable {m : Mem} {p : Prog α} {ps : ℕ → Prog α} {k : α → Prog β} {ks : ℕ → α → Prog β} {a : α}

theorem returns_const : Returns (fun _ => p) m ↔ (p m).1 ≠ none :=
  ⟨fun ⟨_, h⟩ => h, fun h => ⟨0, h⟩⟩

theorem returns_bind_of (ha : (p m).1 = some a) :
    Returns (fun n => p >>= ks n) m ↔ Returns (fun n => ks n a) m := by
  simp only [Returns, bind_val, ha, Option.bind_some]

theorem not_returns_bind (hp : (p m).1 = none) : ¬ Returns (fun n => p >>= ks n) m := by
  rintro ⟨n, hn⟩
  rw [bind_val, hp] at hn
  exact hn rfl

/-- Followed by a program that returns. -/
theorem returns_bind_total (hk : ∀ a, (k a m).1 ≠ none) :
    Returns (fun n => ps n >>= k) m ↔ Returns ps m := by
  refine exists_congr fun n => ?_
  rw [bind_val]
  cases (ps n m).1 with
  | none => exact iff_of_false (fun h => h rfl) fun h => h rfl
  | some a => exact iff_of_true (hk a) (Option.some_ne_none a)

end Returns

/-- The program returns `a`, given the right number of turns. -/
def Yields (p : ℕ → Prog α) (m : Mem) (a : α) : Prop := ∃ n, (p n m).1 = some a

section Yields

variable {m : Mem} {p : Prog α} {ps : ℕ → Prog α} {k : α → Prog β} {ks : ℕ → α → Prog β} {a : α}
  {b : β}

theorem yields_const : Yields (fun _ => p) m a ↔ (p m).1 = some a :=
  ⟨fun ⟨_, h⟩ => h, fun h => ⟨0, h⟩⟩

theorem yields_bind_of (ha : (p m).1 = some a) :
    Yields (fun n => p >>= ks n) m b ↔ Yields (fun n => ks n a) m b := by
  simp only [Yields, bind_val, ha, Option.bind_some]

theorem not_yields_bind (hp : (p m).1 = none) : ¬ Yields (fun n => p >>= ks n) m b := by
  rintro ⟨n, hn⟩
  rw [bind_val, hp] at hn
  cases hn

/-- Followed by a program without loops. -/
theorem yields_bind :
    Yields (fun n => ps n >>= k) m b ↔ ∃ a, Yields ps m a ∧ (k a m).1 = some b := by
  constructor
  · rintro ⟨n, hn⟩
    rw [bind_val] at hn
    obtain ⟨a, ha, hb⟩ := Option.bind_eq_some_iff.1 hn
    exact ⟨a, ⟨n, ha⟩, hb⟩
  · rintro ⟨a, ⟨n, ha⟩, hb⟩
    exact ⟨n, by rw [bind_val, ha, Option.bind_some, hb]⟩

end Yields

/-- On memory `m`, a turn leaves the loop exactly on the states of `E`, with `e` of the state, and
goes on to `f` of the state otherwise. -/
structure Turn (step : σ → Prog (σ ⊕ β)) (m : Mem) (E : σ → Prop) (f : σ → σ)
    (e : σ → Option β) : Prop where
  leave : ∀ s, E s → (step s m).1 = (e s).map Sum.inr
  goes : ∀ s, ¬ E s → (step s m).1 = some (Sum.inl (f s))

section Loop

variable {P : UInt32 → Prop} {m : Mem} {step : σ → Prog (σ ⊕ β)} {E : σ → Prop} {f : σ → σ}
  {e : σ → Option β} {s : σ} {n : ℕ}

theorem loop_succ : loop step (n + 1) s = step s >>= fun
    | .inl t => loop step n t
    | .inr b => pure b := rfl

theorem Turn.val_of_end (h : Turn step m E f e) (hs : E s) : (loop step (n + 1) s m).1 = e s := by
  rw [loop_succ, bind_val, h.leave s hs]
  cases e s with
  | none => rfl
  | some b => rfl

theorem Turn.val_of_not_end (h : Turn step m E f e) (hs : ¬ E s) :
    (loop step (n + 1) s m).1 = (loop step n (f s) m).1 := by
  rw [loop_succ, bind_val, h.goes s hs, Option.bind_some]

/-- What the loop returns from its first state of `E`, once it has enough turns. -/
theorem Turn.val_of_first (h : Turn step m E f e) :
    ∀ k s, (∀ j < k, ¬ E (f^[j] s)) → E (f^[k] s) → ∀ n, k < n →
      (loop step n s m).1 = e (f^[k] s) := by
  intro k
  induction k with
  | zero =>
    intro s _ hend n hn
    obtain ⟨n, rfl⟩ : ∃ n', n = n' + 1 := ⟨n - 1, by omega⟩
    exact h.val_of_end hend
  | succ k ih =>
    intro s hbefore hend n hn
    obtain ⟨n, rfl⟩ : ∃ n', n = n' + 1 := ⟨n - 1, by omega⟩
    have hs : ¬ E s := hbefore 0 (by omega)
    rw [h.val_of_not_end hs, Function.iterate_succ_apply]
    rw [Function.iterate_succ_apply] at hend
    refine ih (f s) (fun j hj => ?_) hend n (by omega)
    have hj' := hbefore (j + 1) (by omega)
    rwa [Function.iterate_succ_apply] at hj'

/-- With too few turns to come to `E` the loop returns nothing. -/
theorem Turn.val_of_few (h : Turn step m E f e) :
    ∀ n s, (∀ j < n, ¬ E (f^[j] s)) → (loop step n s m).1 = none := by
  intro n
  induction n with
  | zero => intro s _; rfl
  | succ n ih =>
    intro s hbefore
    have hs : ¬ E s := hbefore 0 (by omega)
    rw [h.val_of_not_end hs]
    refine ih (f s) fun j hj => ?_
    have hj' := hbefore (j + 1) (by omega)
    rwa [Function.iterate_succ_apply] at hj'

/-- The loop gives what the loop over the states gives. -/
theorem Turn.val_eq [DecidablePred E] (h : Turn step m E f e) :
    ∀ n s, (loop step n s m).1 =
      (Loop.whileLoop (fun s => decide (¬ E s)) (fun s => some (f s)) n s).bind e := by
  intro n
  induction n with
  | zero => intro s; rfl
  | succ n ih =>
    intro s
    rw [Loop.whileLoop_succ]
    by_cases hs : E s
    · rw [h.val_of_end hs, if_neg (by simpa using hs), Option.bind_some]
    · rw [h.val_of_not_end hs, if_pos (by simpa using hs), Option.bind_some, ih]

/-- Two loops that go through the same states return corresponding results. -/
theorem Turn.val_map {γ : Type} {step' : σ → Prog (σ ⊕ γ)} {e' : σ → Option γ}
    (h : Turn step m E f e) (h' : Turn step' m E f e') (g : γ → β) (he : ∀ s, (e' s).map g = e s) :
    ∀ n s, (loop step' n s m).1.map g = (loop step n s m).1 := by
  intro n
  induction n with
  | zero => intro s; rfl
  | succ n ih =>
    intro s
    by_cases hs : E s
    · rw [h'.val_of_end hs, h.val_of_end hs, he]
    · rw [h'.val_of_not_end hs, h.val_of_not_end hs, ih]

/-- **Termination.**  The loop returns exactly when it comes to a state of `E`, and the end there is
no trap. -/
theorem Turn.returns_iff (h : Turn step m E f e) (s : σ) :
    Returns (fun n => loop step n s) m ↔
      (∃ k, E (f^[k] s)) ∧
        ∀ k, (∀ j < k, ¬ E (f^[j] s)) → E (f^[k] s) → e (f^[k] s) ≠ none := by
  classical
  constructor
  · rintro ⟨n, hn⟩
    have hend : ∃ k, E (f^[k] s) := by
      by_contra hnever
      exact hn (h.val_of_few n s fun k _ hk => hnever ⟨k, hk⟩)
    refine ⟨hend, fun k hbefore hk => ?_⟩
    by_cases hkn : k < n
    · rw [← h.val_of_first k s hbefore hk n hkn]
      exact hn
    · exact absurd (h.val_of_few n s fun j hj => hbefore j (by omega)) hn
  · rintro ⟨hend, hall⟩
    refine ⟨Nat.find hend + 1, ?_⟩
    rw [h.val_of_first (Nat.find hend) s (fun j hj => Nat.find_min hend hj) (Nat.find_spec hend) _
      (Nat.lt_succ_self _)]
    exact hall _ (fun j hj => Nat.find_min hend hj) (Nat.find_spec hend)

/-- What a loop may return: the end of the first state of `E` it comes to. -/
theorem Turn.yields_iff (h : Turn step m E f e) (s : σ) {b : β} :
    Yields (fun n => loop step n s) m b ↔
      ∃ k, (∀ j < k, ¬ E (f^[j] s)) ∧ E (f^[k] s) ∧ e (f^[k] s) = some b := by
  classical
  constructor
  · rintro ⟨n, hn⟩
    have hend : ∃ k, E (f^[k] s) := by
      by_contra hnever
      rw [h.val_of_few n s fun k _ hk => hnever ⟨k, hk⟩] at hn
      cases hn
    have hbefore : ∀ j < Nat.find hend, ¬ E (f^[j] s) := fun j hj => Nat.find_min hend hj
    refine ⟨Nat.find hend, hbefore, Nat.find_spec hend, ?_⟩
    by_cases hlt : Nat.find hend < n
    · rw [← h.val_of_first _ s hbefore (Nat.find_spec hend) n hlt]
      exact hn
    · rw [h.val_of_few n s fun j hj => hbefore j (by omega)] at hn
      cases hn
  · rintro ⟨k, hbefore, hend, hb⟩
    exact ⟨k + 1, by rw [h.val_of_first k s hbefore hend _ (Nat.lt_succ_self k), hb]⟩

/-- **Reads of a loop.**  With `n` turns a loop stays within `P` exactly when each of the turns does,
up to the first that leaves it. -/
theorem Turn.within_loop (h : Turn step m E f e) (n : ℕ) (s : σ) :
    Within P (loop step n s) m ↔
      ∀ k < n, (∀ j < k, ¬ E (f^[j] s)) → Within P (step (f^[k] s)) m := by
  induction n generalizing s with
  | zero => exact iff_of_true within_trap fun k hk => absurd hk (Nat.not_lt_zero k)
  | succ n ih =>
    rw [loop_succ, within_bind]
    constructor
    · rintro ⟨hfirst, hrest⟩ k hk hbefore
      cases k with
      | zero => exact hfirst
      | succ k =>
        rw [Function.iterate_succ_apply]
        have hgo := hrest _ (h.goes s (hbefore 0 (by omega)))
        refine (ih (f s)).1 hgo k (by omega) fun j hj => ?_
        have hj' := hbefore (j + 1) (by omega)
        rwa [Function.iterate_succ_apply] at hj'
    · intro hturn
      refine ⟨hturn 0 (by omega) fun j hj => absurd hj (Nat.not_lt_zero j), fun r hr => ?_⟩
      by_cases hs : E s
      · rw [h.leave s hs] at hr
        obtain ⟨b, _, rfl⟩ := Option.map_eq_some_iff.1 hr
        exact within_pure b
      · rw [h.goes s hs] at hr
        obtain rfl := Option.some.inj hr
        refine (ih (f s)).2 fun k hk hbefore => ?_
        have hk' := hturn (k + 1) (by omega) fun j hj => by
          cases j with
          | zero => exact hs
          | succ j =>
            rw [Function.iterate_succ_apply]
            exact hbefore j (by omega)
        rwa [Function.iterate_succ_apply] at hk'

/-- However many turns it is given. -/
theorem Turn.within_iff (h : Turn step m E f e) (s : σ) :
    (∀ n, Within P (loop step n s) m) ↔
      ∀ k, (∀ j < k, ¬ E (f^[j] s)) → Within P (step (f^[k] s)) m := by
  constructor
  · intro hall k
    exact (h.within_loop (k + 1) s).1 (hall _) k (Nat.lt_succ_self k)
  · intro hturn n
    exact (h.within_loop n s).2 fun k _ => hturn k

/-- With turns enough to leave it. -/
theorem Turn.within_of_end (h : Turn step m E f e) {k : ℕ} (hend : E (f^[k] s)) (hk : k < n) :
    Within P (loop step n s) m ↔
      ∀ j, (∀ i < j, ¬ E (f^[i] s)) → Within P (step (f^[j] s)) m := by
  rw [h.within_loop]
  constructor
  · intro hall j hbefore
    refine hall j ?_ hbefore
    by_contra hj
    exact hbefore k (by omega) hend
  · intro hall j _ hbefore
    exact hall j hbefore

end Loop

/-! ### Programs with more traps -/

/-- What `p` returns on `m`, `q` returns too. -/
def Refines (p q : Prog α) (m : Mem) : Prop := ∀ a, (p m).1 = some a → (q m).1 = some a

section Refines

variable {m : Mem} {p q : Prog α} {k l : α → Prog β}

theorem Refines.refl (p : Prog α) (m : Mem) : Refines p p m := fun _ h => h

theorem Refines.bind (h : Refines p q m) (hk : ∀ a, Refines (k a) (l a) m) :
    Refines (p >>= k) (q >>= l) m := by
  intro b hb
  rw [bind_val] at hb ⊢
  obtain ⟨a, ha, hb⟩ := Option.bind_eq_some_iff.1 hb
  rw [h a ha]
  exact hk a b hb

theorem Refines.ite {c : Prop} [Decidable c] {p' q' : Prog α} (h : Refines p q m)
    (h' : Refines p' q' m) : Refines (if c then p else p') (if c then q else q') m := by
  split
  · exact h
  · exact h'

theorem Refines.loop {step step' : σ → Prog (σ ⊕ β)} (h : ∀ s, Refines (step s) (step' s) m) :
    ∀ n s, Refines (loop step n s) (loop step' n s) m := by
  intro n
  induction n with
  | zero => exact fun s => Refines.refl _ m
  | succ n ih =>
    intro s
    rw [loop_succ, loop_succ]
    refine (h s).bind fun r => ?_
    cases r with
    | inl t => exact ih t
    | inr b => exact Refines.refl _ m

end Refines

/-! ### What a loop keeps -/

/-- **Loop rule.**  What every turn keeps, and every way out turns into `Q`, gives `Q` of what the loop
returns. -/
theorem loop_rule {m : Mem} {step : σ → Prog (σ ⊕ β)} {I : σ → Prop} {Q : β → Prop}
    (hgoes : ∀ s t, I s → (step s m).1 = some (.inl t) → I t)
    (hleave : ∀ s b, I s → (step s m).1 = some (.inr b) → Q b) :
    ∀ n s b, I s → (loop step n s m).1 = some b → Q b := by
  intro n
  induction n with
  | zero =>
    intro s b _ h
    cases h
  | succ n ih =>
    intro s b hs h
    rw [loop_succ, bind_val] at h
    obtain ⟨r, hr, hrest⟩ := Option.bind_eq_some_iff.1 h
    cases r with
    | inl t => exact ih t b (hgoes s t hs hr) hrest
    | inr c =>
      obtain rfl : c = b := Option.some.inj hrest
      exact hleave s c hs hr

/-! ### Two memories -/

/-- If `m'` is like `m` in every byte that `p` reads of it, `p` returns the same on both. -/
def Agrees (m m' : Mem) (p : Prog α) : Prop :=
  Within (fun x => m' x = m x) p m → (p m').1 = (p m).1

section Agrees

variable {m m' : Mem} {p q : Prog α} {k : α → Prog β}

theorem agrees_pure (a : α) : Agrees m m' (pure a : Prog α) := fun _ => rfl

theorem agrees_trap : Agrees m m' (trap : Prog α) := fun _ => rfl

theorem agrees_peek {g : Mem → α} (h : g m' = g m) : Agrees m m' (peek fun m => some (g m)) :=
  fun _ => congrArg some h

theorem agrees_load8 (x : UInt32) : Agrees m m' (load8 x) := by
  intro h
  rw [within_load8] at h
  exact congrArg some (covered_one.1 h)

theorem agrees_load16 (x : UInt32) : Agrees m m' (load16 x) := by
  intro h
  rw [within_load16] at h
  have h0 := h 0 (by decide)
  have h1 := h 1 (by decide)
  rw [show UInt32.ofNat 0 = 0 from rfl, UInt32.add_zero] at h0
  rw [show UInt32.ofNat 1 = 1 from rfl] at h1
  show some (read16 m' x) = some (read16 m x)
  rw [read16, read16, h0, h1]

theorem agrees_load32 (x : UInt32) : Agrees m m' (load32 x) := by
  intro h
  rw [within_load32] at h
  refine congrArg some (read32_congr fun i hi => ?_)
  have hbyte := h i.toNat hi
  rwa [show UInt32.ofNat i.toNat = i from Word32.ofNat_toNat i] at hbyte

theorem Agrees.bind (hp : Agrees m m' p) (hk : ∀ a, Agrees m m' (k a)) : Agrees m m' (p >>= k) := by
  intro h
  rw [within_bind] at h
  rw [bind_val, bind_val, hp h.1]
  cases ha : (p m).1 with
  | none => rfl
  | some a => exact hk a (h.2 a ha)

theorem Agrees.ite {c : Prop} [Decidable c] (hp : Agrees m m' p) (hq : Agrees m m' q) :
    Agrees m m' (if c then p else q) := by
  split
  · exact hp
  · exact hq

theorem Agrees.loop {step : σ → Prog (σ ⊕ β)} (h : ∀ s, Agrees m m' (step s)) :
    ∀ n s, Agrees m m' (loop step n s) := by
  intro n
  induction n with
  | zero => exact fun _ => agrees_trap
  | succ n ih =>
    intro s
    rw [loop_succ]
    refine (h s).bind fun r => ?_
    cases r with
    | inl t => exact ih t
    | inr b => exact agrees_pure b

end Agrees

/-! ### Coming back -/

/-- **Loops over finitely many states.**  Going on from `s` one comes to a state of `E` exactly when
one does not come back to a state passed before without having met `E`. -/
theorem exists_end_iff [Finite σ] (E : σ → Prop) (f : σ → σ) (s : σ) :
    (∃ k, E (f^[k] s)) ↔ ∀ j k, j < k → f^[j] s = f^[k] s → ∃ i < k, E (f^[i] s) := by
  constructor
  · rintro ⟨i, hi⟩ j k hjk hsame
    -- an end behind the second passage was met after the first one too
    induction i using Nat.strong_induction_on with
    | _ i ih =>
      by_cases hik : i < k
      · exact ⟨i, hik, hi⟩
      · refine ih (i - (k - j)) (by omega) ?_
        have hback : f^[i - (k - j)] s = f^[i] s := by
          rw [show i - (k - j) = (i - k) + j by omega, Function.iterate_add_apply, hsame,
            ← Function.iterate_add_apply, show i - k + k = i by omega]
        rwa [hback]
  · intro h
    obtain ⟨j, k, hne, hsame⟩ := Finite.exists_ne_map_eq_of_infinite fun k => f^[k] s
    rcases Nat.lt_or_gt_of_ne hne with hlt | hgt
    · obtain ⟨i, _, hi⟩ := h j k hlt hsame
      exact ⟨i, hi⟩
    · obtain ⟨i, _, hi⟩ := h k j hgt hsame.symm
      exact ⟨i, hi⟩

instance finiteUInt32 : Finite UInt32 :=
  Finite.of_injective (fun x : UInt32 => (⟨x.toNat, x.toNat_lt⟩ : Fin (2 ^ 32))) fun _ _ h =>
    UInt32.toNat_inj.1 (Fin.mk.inj h)

end Reader
