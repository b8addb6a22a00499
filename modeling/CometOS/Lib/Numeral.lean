import Mathlib.Tactic

/-!
# Numerals

How a number is written in a base: its digits, the most significant first, without leading zeros,
and a single zero for zero.  Digits come from `Nat.digits`; what they look like is a parameter.
-/

namespace Numeral

variable {α : Type*} (digit : ℕ → α) {b n : ℕ}

/-- The way `n` is written in base `b`. -/
def numeral (b n : ℕ) : List α :=
  if n = 0 then [digit 0] else ((Nat.digits b n).map digit).reverse

theorem numeral_of_lt (h : n < b) : numeral digit b n = [digit n] := by
  rw [numeral]
  by_cases h0 : n = 0
  · rw [if_pos h0, h0]
  · rw [if_neg h0, Nat.digits_of_lt b n h0 h]
    rfl

/-- The last digit is the remainder, and the quotient is written before it. -/
theorem numeral_of_le (hb : 2 ≤ b) (h : b ≤ n) :
    numeral digit b n = numeral digit b (n / b) ++ [digit (n % b)] := by
  have hq : n / b ≠ 0 := by
    have := Nat.div_pos h (by omega)
    omega
  rw [numeral, numeral, if_neg (by omega), if_neg hq, Nat.digits_def' (by omega) (by omega),
    List.map_cons, List.reverse_cons]

theorem numeral_ne_nil (hb : 2 ≤ b) : numeral digit b n ≠ [] := by
  by_cases h : n < b
  · rw [numeral_of_lt digit h]
    exact List.cons_ne_nil _ _
  · rw [numeral_of_le digit hb (by omega)]
    exact List.append_ne_nil_of_right_ne_nil _ (List.cons_ne_nil _ _)

theorem numeral_length_le {k : ℕ} (hb : 2 ≤ b) (hk : 0 < k) (h : n < b ^ k) :
    (numeral digit b n).length ≤ k := by
  rw [numeral]
  by_cases h0 : n = 0
  · rw [if_pos h0, List.length_singleton]
    exact hk
  · rw [if_neg h0, List.length_reverse, List.length_map]
    exact (Nat.digits_length_le_iff (by omega) n).2 h

theorem numeral_length (hb : 2 ≤ b) : (numeral digit b n).length = Nat.log b n + 1 := by
  rw [numeral]
  by_cases h0 : n = 0
  · rw [if_pos h0, h0, Nat.log_zero_right]
    rfl
  · rw [if_neg h0, List.length_reverse, List.length_map, Nat.length_digits b n (by omega) h0]

/-! ### Reading a numeral -/

/-- The number that a text stands for in base `b`, if its characters count what `val` says. -/
def readNumeral (val : α → ℕ) (b : ℕ) (xs : List α) : ℕ := xs.foldl (fun n x => n * b + val x) 0

theorem readNumeral_append (val : α → ℕ) (b : ℕ) (xs : List α) (x : α) :
    readNumeral val b (xs ++ [x]) = readNumeral val b xs * b + val x := by
  rw [readNumeral, List.foldl_append]
  rfl

/-- **Round trip**: what is written is read back. -/
theorem readNumeral_numeral {val : α → ℕ} (hb : 2 ≤ b) (hval : ∀ k < b, val (digit k) = k) :
    readNumeral val b (numeral digit b n) = n := by
  induction n using Nat.strong_induction_on with
  | _ n ih =>
    by_cases hlt : n < b
    · rw [numeral_of_lt digit hlt, ← List.nil_append [digit n], readNumeral_append, hval n hlt]
      exact (congrArg (· + n) (Nat.zero_mul b)).trans (Nat.zero_add n)
    · have hmod := hval (n % b) (Nat.mod_lt n (by omega))
      rw [numeral_of_le digit hb (by omega), readNumeral_append,
        ih (n / b) (Nat.div_lt_self (by omega) (by omega)), hmod]
      exact Nat.div_add_mod' n b

/-- The first digit of a number that is not zero is no zero. -/
theorem numeral_head (hb : 2 ≤ b) (hn : n ≠ 0) :
    ∃ k, 0 < k ∧ k < b ∧ (numeral digit b n).head? = some (digit k) := by
  induction n using Nat.strong_induction_on with
  | _ n ih =>
    by_cases hlt : n < b
    · rw [numeral_of_lt digit hlt]
      exact ⟨n, Nat.pos_of_ne_zero hn, hlt, rfl⟩
    · have hq := Nat.div_pos (show b ≤ n by omega) (by omega)
      obtain ⟨k, hpos, hk, hhead⟩ := ih (n / b) (Nat.div_lt_self (by omega) (by omega)) (by omega)
      refine ⟨k, hpos, hk, ?_⟩
      rw [numeral_of_le digit hb (by omega), List.head?_append, hhead]
      rfl

theorem mem_numeral (hb : 2 ≤ b) {x : α} (h : x ∈ numeral digit b n) : ∃ k < b, x = digit k := by
  induction n using Nat.strong_induction_on with
  | _ n ih =>
    by_cases hlt : n < b
    · rw [numeral_of_lt digit hlt] at h
      exact ⟨n, hlt, List.mem_singleton.1 h⟩
    · rw [numeral_of_le digit hb (by omega)] at h
      rcases List.mem_append.1 h with hx | hx
      · exact ih (n / b) (Nat.div_lt_self (by omega) (by omega)) hx
      · exact ⟨n % b, Nat.mod_lt n (by omega), List.mem_singleton.1 hx⟩

/-! ### A fixed number of digits -/

/-- The last `k` digits of `n`. -/
def lastDigits (b : ℕ) : ℕ → ℕ → List α
  | 0, _ => []
  | k + 1, n => lastDigits b k (n / b) ++ [digit (n % b)]

theorem lastDigits_length (b k n : ℕ) : (lastDigits digit b k n).length = k := by
  induction k generalizing n with
  | zero => rfl
  | succ k ih => rw [lastDigits, List.length_append, ih, List.length_singleton]

/-- From the front, the digit of weight `b ^ k` comes first. -/
theorem lastDigits_succ (b k n : ℕ) :
    lastDigits digit b (k + 1) n = digit (n / b ^ k % b) :: lastDigits digit b k n := by
  induction k generalizing n with
  | zero => rw [Nat.pow_zero, Nat.div_one]; rfl
  | succ k ih =>
    rw [lastDigits, ih (n / b), List.cons_append, Nat.div_div_eq_div_mul, Nat.pow_succ']
    rfl

theorem lastDigits_zero (b k : ℕ) : lastDigits digit b k 0 = List.replicate k (digit 0) := by
  induction k with
  | zero => rfl
  | succ k ih => rw [lastDigits, Nat.zero_div, Nat.zero_mod, ih, List.replicate_succ']

/-- They are the numeral with zeros in front, if it is not longer. -/
theorem lastDigits_eq {k : ℕ} (hb : 2 ≤ b) (h : (numeral digit b n).length ≤ k) :
    lastDigits digit b k n =
      List.replicate (k - (numeral digit b n).length) (digit 0) ++ numeral digit b n := by
  induction k generalizing n with
  | zero => exact absurd (List.length_eq_zero_iff.1 (Nat.le_zero.1 h)) (numeral_ne_nil digit hb)
  | succ k ih =>
    rw [lastDigits]
    by_cases hlt : n < b
    · rw [Nat.div_eq_of_lt hlt, lastDigits_zero, numeral_of_lt digit hlt, Nat.mod_eq_of_lt hlt]
      rfl
    · have hnum := numeral_of_le digit hb (n := n) (by omega)
      have hlen : (numeral digit b n).length = (numeral digit b (n / b)).length + 1 := by
        rw [hnum, List.length_append, List.length_singleton]
      rw [ih (n := n / b) (by omega), List.append_assoc, ← hnum, hlen, Nat.succ_sub_succ]

end Numeral
