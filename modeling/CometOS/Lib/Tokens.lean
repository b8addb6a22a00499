import Mathlib.Tactic

/-!
# Tokens of a list

A token is a maximal non-empty stretch without separators, given by where it starts and where it
stops.  `tokens` finds them from left to right, with the position and the start of the token it is
inside of, if it is inside one.
-/

namespace Tokens

variable {α : Type*} (sep : α → Bool)

/-- The elements from `i` to `j` are a token. -/
structure IsToken (xs : List α) (i j : ℕ) : Prop where
  lt : i < j
  le : j ≤ xs.length
  inside : ∀ k x, i ≤ k → k < j → xs[k]? = some x → sep x = false
  before : i = 0 ∨ ∃ x, xs[i - 1]? = some x ∧ sep x = true
  after : j = xs.length ∨ ∃ x, xs[j]? = some x ∧ sep x = true

/-- The tokens from position `off` on. -/
def tokens : ℕ → Option ℕ → List α → List (ℕ × ℕ)
  | _, none, [] => []
  | off, some i, [] => [(i, off)]
  | off, none, x :: xs =>
    if sep x then tokens (off + 1) none xs else tokens (off + 1) (some off) xs
  | off, some i, x :: xs =>
    if sep x then (i, off) :: tokens (off + 1) none xs else tokens (off + 1) (some i) xs

variable {sep} {off i j : ℕ} {s pre xs ys : List α} {x : α}

/-- The longest part at the front whose elements pass a test. -/
theorem exists_split (p : α → Bool) (xs : List α) : ∃ ws ys, xs = ws ++ ys ∧
    (∀ w ∈ ws, p w = true) ∧ (ys = [] ∨ ∃ y ys', ys = y :: ys' ∧ p y = false) := by
  induction xs with
  | nil => exact ⟨[], [], rfl, fun _ h => (List.not_mem_nil h).elim, Or.inl rfl⟩
  | cons x xs ih =>
    by_cases hx : p x = true
    · obtain ⟨ws, ys, heq, hws, hys⟩ := ih
      refine ⟨x :: ws, ys, by rw [heq, List.cons_append], fun w hw => ?_, hys⟩
      rcases List.mem_cons.1 hw with rfl | hw
      · exact hx
      · exact hws w hw
    · exact ⟨[], x :: xs, rfl, fun _ h => (List.not_mem_nil h).elim,
        Or.inr ⟨x, xs, rfl, by simpa using hx⟩⟩

/-- Separators outside a token are passed over. -/
theorem tokens_skip (h : ∀ x ∈ xs, sep x = true) :
    tokens sep off none (xs ++ ys) = tokens sep (off + xs.length) none ys := by
  induction xs generalizing off with
  | nil => rfl
  | cons x xs ih =>
    rw [List.cons_append, tokens, if_pos (h x List.mem_cons_self),
      ih fun y hy => h y (List.mem_cons_of_mem _ hy), List.length_cons]
    congr 1
    omega

/-- Inside a token other elements are passed over. -/
theorem tokens_inside (h : ∀ x ∈ xs, sep x = false) :
    tokens sep off (some i) (xs ++ ys) = tokens sep (off + xs.length) (some i) ys := by
  induction xs generalizing off with
  | nil => rfl
  | cons x xs ih =>
    rw [List.cons_append, tokens, if_neg (by rw [h x List.mem_cons_self]; decide),
      ih fun y hy => h y (List.mem_cons_of_mem _ hy), List.length_cons]
    congr 1
    omega

/-- A token starts with an element that is no separator. -/
theorem tokens_start (h : sep x = false) :
    tokens sep off none (x :: xs) = tokens sep off (some off) (x :: xs) := by
  rw [tokens, tokens, if_neg (by rw [h]; decide), if_neg (by rw [h]; decide)]

/-! ### Order -/

/-- Tokens come one after the other, with a separator between them. -/
theorem tokens_pairwise : ∀ (xs : List α) (off : ℕ) (start : Option ℕ), (∀ i ∈ start, i < off) →
    (tokens sep off start xs).Pairwise (fun a b => a.2 < b.1) ∧
      ∀ t ∈ tokens sep off start xs, start.getD off ≤ t.1 := by
  intro xs
  induction xs with
  | nil =>
    intro off start _
    cases start with
    | none => exact ⟨List.Pairwise.nil, fun t ht => (List.not_mem_nil ht).elim⟩
    | some i =>
      refine ⟨List.pairwise_singleton _ _, fun t ht => ?_⟩
      rw [List.mem_singleton.1 ht]
      exact le_rfl
  | cons x xs ih =>
    intro off start hstart
    obtain ⟨hnone, hfrom⟩ := ih (off + 1) none (fun i hi => by cases hi)
    cases start with
    | none =>
      rw [tokens]
      by_cases hx : sep x = true
      · rw [if_pos hx]
        exact ⟨hnone, fun t ht => (Nat.le_succ off).trans (hfrom t ht)⟩
      · rw [if_neg hx]
        exact ih (off + 1) (some off) (fun i hi => by
          obtain rfl := Option.some.inj hi
          omega)
    | some i =>
      have hi := hstart i rfl
      rw [tokens]
      by_cases hx : sep x = true
      · rw [if_pos hx]
        refine ⟨List.pairwise_cons.2 ⟨fun t ht => hfrom t ht, hnone⟩, fun t ht => ?_⟩
        rcases List.mem_cons.1 ht with rfl | ht
        · exact le_rfl
        · have := hfrom t ht
          simp only [Option.getD_none, Option.getD_some] at this ⊢
          omega
      · rw [if_neg hx]
        exact ih (off + 1) (some i) (fun i' hi' => by
          obtain rfl := Option.some.inj hi'
          omega)

/-! ### Completeness -/

/-- A token that starts within a stretch without separators, up to the next one, is that stretch. -/
theorem IsToken.eq_of_inside {i₀ n : ℕ} (ht : IsToken sep s i j) (hi : i₀ ≤ i) (hlt : i < n)
    (hn : n ≤ s.length) (hno : ∀ k x, i₀ ≤ k → k < n → s[k]? = some x → sep x = false)
    (hend : n = s.length ∨ ∃ x, s[n]? = some x ∧ sep x = true) : i = i₀ ∧ j = n := by
  have h1 := ht.lt
  have h2 := ht.le
  constructor
  · by_contra hne
    rcases ht.before with h0 | ⟨x, hx, hsep⟩
    · omega
    · rw [hno (i - 1) x (by omega) (by omega) hx] at hsep
      cases hsep
  · rcases Nat.lt_trichotomy j n with hjn | hjn | hjn
    · rcases ht.after with h0 | ⟨x, hx, hsep⟩
      · omega
      · rw [hno j x (by omega) hjn hx] at hsep
        cases hsep
    · exact hjn
    · rcases hend with h0 | ⟨x, hx, hsep⟩
      · omega
      · rw [ht.inside n x hlt.le hjn hx] at hsep
        cases hsep

/-- No token starts at a separator. -/
theorem IsToken.start_ne {n : ℕ} (ht : IsToken sep s i j) (hx : s[n]? = some x)
    (hsep : sep x = true) : i ≠ n := by
  rintro rfl
  rw [ht.inside i x le_rfl ht.lt hx] at hsep
  cases hsep

/-- The elements from `i` to `n` belong to one token, which starts at `i`. -/
structure OpenToken (sep : α → Bool) (xs : List α) (i n : ℕ) : Prop where
  lt : i < n
  inside : ∀ k x, i ≤ k → k < n → xs[k]? = some x → sep x = false
  before : i = 0 ∨ ∃ x, xs[i - 1]? = some x ∧ sep x = true

/-- It starts with an element behind a separator, or with the first of the list. -/
theorem OpenToken.start {n : ℕ} (hx : s[n]? = some x) (hsep : sep x = false)
    (hbefore : n = 0 ∨ ∃ x, s[n - 1]? = some x ∧ sep x = true) : OpenToken sep s n (n + 1) where
  lt := Nat.lt_succ_self n
  inside k y hk hk' hy := by
    obtain rfl : k = n := by omega
    obtain rfl := Option.some.inj (hx.symm.trans hy)
    exact hsep
  before := hbefore

/-- It goes on with every element that is no separator. -/
theorem OpenToken.next {n : ℕ} (h : OpenToken sep s i n) (hx : s[n]? = some x)
    (hsep : sep x = false) : OpenToken sep s i (n + 1) where
  lt := h.lt.trans (Nat.lt_succ_self n)
  inside k y hk hk' hy := by
    by_cases hkn : k < n
    · exact h.inside k y hk hkn hy
    · obtain rfl : k = n := by omega
      obtain rfl := Option.some.inj (hx.symm.trans hy)
      exact hsep
  before := h.before

/-- It is a token where it ends, and the only one that starts inside it. -/
theorem OpenToken.token_iff {i₀ n : ℕ} (h : OpenToken sep s i₀ n) (hn : n ≤ s.length)
    (hend : n = s.length ∨ ∃ x, s[n]? = some x ∧ sep x = true) :
    IsToken sep s i j ∧ i₀ ≤ i ∧ i < n ↔ i = i₀ ∧ j = n := by
  constructor
  · rintro ⟨ht, hle, hlt⟩
    exact ht.eq_of_inside hle hlt hn h.inside hend
  · rintro ⟨rfl, rfl⟩
    exact ⟨⟨h.lt, hn, h.inside, h.before, hend⟩, le_rfl, h.lt⟩

/-- **`tokens` finds every token and nothing else.**  Outside a token the element before is a
separator or there is none; inside one, the elements since its start are none. -/
theorem mem_tokens : ∀ (xs pre : List α) (start : Option ℕ), s = pre ++ xs →
    (start = none → pre.length = 0 ∨ ∃ x, s[pre.length - 1]? = some x ∧ sep x = true) →
    (∀ i₀ ∈ start, OpenToken sep s i₀ pre.length) →
    ((i, j) ∈ tokens sep pre.length start xs ↔ IsToken sep s i j ∧ start.getD pre.length ≤ i) := by
  intro xs
  induction xs with
  | nil =>
    intro pre start hs _ hin
    have hlen : s.length = pre.length := by rw [hs, List.append_nil]
    have hlt : IsToken sep s i j → i < pre.length := fun ht => by
      have h1 := ht.lt
      have h2 := ht.le
      omega
    cases start with
    | none =>
      constructor
      · exact fun h => (List.not_mem_nil h).elim
      · rintro ⟨ht, hle⟩
        exact absurd hle (not_le.2 (hlt ht))
    | some i₀ =>
      rw [tokens, List.mem_singleton, Option.getD_some, Prod.mk.injEq,
        ← (hin i₀ rfl).token_iff hlen.ge (Or.inl hlen.symm)]
      exact and_congr_right fun ht => and_iff_left (hlt ht)
  | cons x xs ih =>
    intro pre start hs hout hin
    have hhere : s[pre.length]? = some x := by
      rw [hs, List.getElem?_append_right le_rfl, Nat.sub_self]
      rfl
    have hs' : s = (pre ++ [x]) ++ xs := by rw [hs, List.append_assoc]; rfl
    have hlen : (pre ++ [x]).length = pre.length + 1 := by rw [List.length_append]; rfl
    have hih := fun start => ih (pre ++ [x]) start hs'
    simp only [hlen] at hih
    have hle : pre.length < s.length := by
      rw [hs, List.length_append, List.length_cons]
      omega
    cases start with
    | none =>
      rw [tokens, Option.getD_none]
      by_cases hx : sep x = true
      · rw [if_pos hx, hih none (fun _ => Or.inr ⟨x, hhere, hx⟩) (fun _ h => by cases h),
          Option.getD_none]
        refine and_congr_right fun ht => ⟨fun h => Nat.le_of_succ_le h, fun h => ?_⟩
        exact lt_of_le_of_ne h (ht.start_ne hhere hx).symm
      · have hx' : sep x = false := by simpa using hx
        rw [if_neg hx, hih (some pre.length) (fun h => by cases h) fun i₀ hi₀ => ?_, Option.getD_some]
        obtain rfl := Option.some.inj hi₀
        exact OpenToken.start hhere hx' (hout rfl)
    | some i₀ =>
      have hopen := hin i₀ rfl
      rw [tokens, Option.getD_some]
      by_cases hx : sep x = true
      · rw [if_pos hx, List.mem_cons, Prod.mk.injEq,
          ← hopen.token_iff hle.le (Or.inr ⟨x, hhere, hx⟩),
          hih none (fun _ => Or.inr ⟨x, hhere, hx⟩) (fun _ h => by cases h), Option.getD_none,
          ← and_or_left]
        refine and_congr_right fun ht => ?_
        have hne := ht.start_ne hhere hx
        have hlt := hopen.lt
        omega
      · have hx' : sep x = false := by simpa using hx
        rw [if_neg hx, hih (some i₀) (fun h => by cases h) fun i₁ hi₁ => ?_, Option.getD_some]
        obtain rfl := Option.some.inj hi₁
        exact hopen.next hhere hx'

end Tokens
