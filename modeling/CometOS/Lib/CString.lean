import CometOS.Lib.ByteMemory
import CometOS.Lib.Loop

/-!
# Strings in memory

`StringAt m p xs` says that the bytes `xs`, none of them 0, lie at `p` and a 0 comes after them.  A
scan over a string is a loop that counts up while the byte at the count passes a test; it stops at
the first byte that does not.
-/

namespace CString

open ByteMemory Loop Word32

/-- The string at `p` is `xs`. -/
def StringAt (m : Mem) : UInt32 → List UInt8 → Prop
  | p, [] => m p = 0
  | p, x :: xs => m p = x ∧ x ≠ 0 ∧ StringAt m (p + 1) xs

variable {m : Mem} {p : UInt32} {x : UInt8} {xs ys : List UInt8}

theorem stringAt_nil : StringAt m p [] ↔ m p = 0 := Iff.rfl

theorem stringAt_single :
    StringAt m p [x] ↔ m p = x ∧ x ≠ 0 ∧ m (p + 1) = 0 := Iff.rfl

theorem ofNat_succ (n : ℕ) : UInt32.ofNat (n + 1) = UInt32.ofNat n + 1 := by
  rw [UInt32.ofNat_add]
  rfl

theorem add_one_ofNat (p : UInt32) (n : ℕ) : p + 1 + UInt32.ofNat n = p + UInt32.ofNat (n + 1) := by
  rw [ofNat_succ, UInt32.add_comm (UInt32.ofNat n) 1, ← UInt32.add_assoc]

/-- Moving past the first part of a string. -/
theorem StringAt.append (h : StringAt m p (xs ++ ys)) : StringAt m (p + UInt32.ofNat xs.length) ys := by
  induction xs generalizing p with
  | nil =>
    rw [List.length_nil, show UInt32.ofNat 0 = 0 from rfl, UInt32.add_zero]
    exact h
  | cons x xs ih =>
    have h' := ih h.2.2
    rw [List.length_cons, ← add_one_ofNat]
    exact h'

/-- The byte at each place of a string. -/
theorem StringAt.byte (h : StringAt m p xs) {i : ℕ} (hi : i < xs.length) :
    m (p + UInt32.ofNat i) = xs[i] ∧ xs[i] ≠ 0 := by
  have hsplit : xs = xs.take i ++ xs[i] :: xs.drop (i + 1) := by
    rw [List.getElem_cons_drop, List.take_append_drop]
  rw [hsplit] at h
  have h' := h.append
  rw [List.length_take, min_eq_left hi.le] at h'
  exact ⟨h'.1, h'.2.1⟩

theorem StringAt.terminator (h : StringAt m p xs) : m (p + UInt32.ofNat xs.length) = 0 := by
  rw [← List.append_nil xs] at h
  exact h.append

/-- What lies at the places of a string, with a 0 behind it, is the string. -/
theorem stringAt_of_bytes
    (hbytes : ∀ i, (hi : i < xs.length) → m (p + UInt32.ofNat i) = xs[i] ∧ xs[i] ≠ 0)
    (hend : m (p + UInt32.ofNat xs.length) = 0) : StringAt m p xs := by
  induction xs generalizing p with
  | nil =>
    rw [List.length_nil, show UInt32.ofNat 0 = 0 from rfl, UInt32.add_zero] at hend
    exact hend
  | cons x xs ih =>
    obtain ⟨hx, hx0⟩ := hbytes 0 (Nat.zero_lt_succ _)
    rw [show UInt32.ofNat 0 = 0 from rfl, UInt32.add_zero] at hx
    refine ⟨hx, hx0, ih (fun i hi => ?_) ?_⟩
    · rw [add_one_ofNat]
      exact hbytes (i + 1) (Nat.succ_lt_succ hi)
    · rw [add_one_ofNat]
      exact hend

/-- A word lies at the beginning of a string if all its bytes do. -/
theorem StringAt.prefix_iff {name : List UInt8} (h : StringAt m p xs) (hname : 0 ∉ name) :
    (∀ i, (hi : i < name.length) → m (p + UInt32.ofNat i) = name[i]) ↔ name <+: xs := by
  induction name generalizing p xs with
  | nil => exact iff_of_true (fun i hi => absurd hi (Nat.not_lt_zero i)) List.nil_prefix
  | cons c name ih =>
    obtain ⟨hc, hrest⟩ := not_or.1 (fun h => hname (List.mem_cons.2 h))
    have hfirst : m (p + UInt32.ofNat 0) = m p := by
      rw [show UInt32.ofNat 0 = 0 from rfl, UInt32.add_zero]
    cases xs with
    | nil =>
      refine iff_of_false (fun hall => hc ?_) fun hpre => List.cons_ne_nil c name (List.prefix_nil.1 hpre)
      rw [← stringAt_nil.1 h, ← hfirst]
      exact hall 0 (Nat.zero_lt_succ _)
    | cons x xs =>
      rw [List.cons_prefix_cons, ← ih h.2.2 hrest]
      constructor
      · intro hall
        refine ⟨?_, fun i hi => ?_⟩
        · rw [← h.1, ← hfirst]
          exact (hall 0 (Nat.zero_lt_succ _)).symm
        · rw [add_one_ofNat]
          exact hall (i + 1) (Nat.succ_lt_succ hi)
      · rintro ⟨rfl, hall⟩ i hi
        cases i with
        | zero =>
          rw [hfirst]
          exact h.1
        | succ i =>
          rw [← add_one_ofNat]
          exact hall i (Nat.lt_of_succ_lt_succ hi)

/-- There is one string at a place. -/
theorem StringAt.unique (h : StringAt m p xs) (h' : StringAt m p ys) : xs = ys := by
  induction xs generalizing p ys with
  | nil =>
    cases ys with
    | nil => rfl
    | cons y ys => exact absurd (h'.1.symm.trans h) h'.2.1
  | cons x xs ih =>
    cases ys with
    | nil => exact absurd (h.1.symm.trans h') h.2.1
    | cons y ys => rw [ih h.2.2 h'.2.2, ← h.1, h'.1]

/-- A byte that is 0 ends a string from every place. -/
theorem exists_stringAt {z : UInt32} (hz : m z = 0) (p : UInt32) : ∃ xs, StringAt m p xs := by
  obtain ⟨n, hn⟩ : ∃ n, (z - p).toNat = n := ⟨_, rfl⟩
  induction n generalizing p with
  | zero =>
    have hzero : z - p = 0 := eq_of_toNat hn
    have hpz : p = z := by grind
    exact ⟨[], hpz ▸ hz⟩
  | succ n ih =>
    by_cases hp : m p = 0
    · exact ⟨[], hp⟩
    · have hnext : (z - (p + 1)).toNat = n := by
        rw [show z - (p + 1) = z - p - 1 by grind, toNat_sub_of_le (by rw [hn]; simp), hn]
        rfl
      obtain ⟨xs, hxs⟩ := ih (p + 1) hnext
      exact ⟨m p :: xs, rfl, hp, hxs⟩

/-- A string ends within the address space. -/
theorem StringAt.length_lt (h : StringAt m p xs) : xs.length < 2 ^ 32 := by
  by_contra hlong
  -- going once around the address space would come back to a byte that is not 0
  have hmod : xs.length % 2 ^ 32 < xs.length := by omega
  have hsame : UInt32.ofNat (xs.length % 2 ^ 32) = UInt32.ofNat xs.length := by
    apply eq_of_toNat
    rw [UInt32.toNat_ofNat', UInt32.toNat_ofNat', Nat.mod_mod]
  obtain ⟨h1, h2⟩ := h.byte hmod
  rw [hsame, h.terminator] at h1
  exact h2 h1.symm

/-- So its length as a word compares as it is. -/
theorem StringAt.lt_length (h : StringAt m p xs) (k : UInt32) :
    k < UInt32.ofNat xs.length ↔ k.toNat < xs.length := by
  rw [UInt32.lt_iff_toNat_lt, toNat_ofNat_of_lt h.length_lt]

/-- **Scanning.**  The loop stops at the first byte that fails the test. -/
theorem scan_eq {f : UInt8 → Bool} {fuel n : ℕ}
    (hstop : f (m (p + UInt32.ofNat n)) = false) :
    ∀ i, i ≤ n → n < fuel + i →
      (∀ k, i ≤ k → k < n → f (m (p + UInt32.ofNat k)) = true) →
      whileLoop (fun r => f (m (p + r))) (fun r => some (r + 1)) fuel (UInt32.ofNat i) =
        some (UInt32.ofNat n) := by
  induction fuel with
  | zero => intro i hi hlt _; omega
  | succ fuel ih =>
    intro i hi hlt hpass
    rw [whileLoop_succ]
    by_cases heq : i = n
    · rw [heq, if_neg (by rw [hstop]; decide)]
    · rw [if_pos (hpass i le_rfl (by omega)), Option.bind_some, ← ofNat_succ]
      exact ih (i + 1) (by omega) (by omega) fun k hk hkn => hpass k (by omega) hkn

end CString
