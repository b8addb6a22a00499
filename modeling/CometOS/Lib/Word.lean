import Mathlib.Tactic

/-!
# 32-bit machine words

Arithmetic on `UInt32` read through `toNat`: sums and products that do not wrap, differences of
ordered words, and the bit masks that split a word at bit `k`.  Nothing here is about one program;
the masks are stated for every split point.
-/

namespace Word32

theorem toNat_add_of_lt {a b : UInt32} (h : a.toNat + b.toNat < 2 ^ 32) :
    (a + b).toNat = a.toNat + b.toNat := by
  rw [UInt32.toNat_add, Nat.mod_eq_of_lt h]

theorem toNat_mul_of_lt {a b : UInt32} (h : a.toNat * b.toNat < 2 ^ 32) :
    (a * b).toNat = a.toNat * b.toNat := by
  rw [UInt32.toNat_mul, Nat.mod_eq_of_lt h]

theorem toNat_sub_of_le {a b : UInt32} (h : b.toNat ≤ a.toNat) :
    (a - b).toNat = a.toNat - b.toNat :=
  UInt32.toNat_sub_of_le a b (UInt32.le_iff_toNat_le.2 h)

/-- Subtraction that borrows past zero comes out at the top of the address space. -/
theorem toNat_sub_of_lt {a b : UInt32} (h : a.toNat < b.toNat) :
    (a - b).toNat = 2 ^ 32 - b.toNat + a.toNat := by
  have hb := b.toNat_lt
  rw [UInt32.toNat_sub, Nat.mod_eq_of_lt (by omega)]

theorem toNat_ofNat_of_lt {n : ℕ} (h : n < 2 ^ 32) : (UInt32.ofNat n).toNat = n :=
  UInt32.toNat_ofNat_of_lt' h

theorem ofNat_toNat (a : UInt32) : UInt32.ofNat a.toNat = a :=
  UInt32.ofNat_toNat

theorem eq_of_toNat {a b : UInt32} (h : a.toNat = b.toNat) : a = b :=
  UInt32.toNat_inj.1 h

theorem toNat_ne {a b : UInt32} (h : a ≠ b) : a.toNat ≠ b.toNat :=
  fun e => h (eq_of_toNat e)

theorem toNat_pos {a : UInt32} (h : a ≠ 0) : 0 < a.toNat := by
  rcases Nat.eq_zero_or_pos a.toNat with h0 | h0
  · exact absurd (eq_of_toNat (b := 0) h0) h
  · exact h0

/-- A word read as a signed number. -/
theorem toInt_toInt32 (a : UInt32) :
    a.toInt32.toInt = if a.toNat < 2 ^ 31 then (a.toNat : ℤ) else a.toNat - 2 ^ 32 := by
  show a.toBitVec.toInt = _
  rw [BitVec.toInt_eq_toNat_cond]
  show (if 2 * a.toNat < 2 ^ 32 then (a.toNat : ℤ) else a.toNat - (2 ^ 32 : ℕ)) = _
  split_ifs
  · rfl
  · omega
  · omega
  · rfl

/-- A signed number that has wrapped, counted from the least one on. -/
theorem bmod_word (x : ℤ) : x.bmod (2 ^ 32) = (x + 2 ^ 31) % 2 ^ 32 - 2 ^ 31 := by
  rw [Int.bmod_def]
  split
  · omega
  · omega

/-- There are fewer than `2 ^ 32` different words other than zero. -/
theorem length_lt_of_nodup {xs : List UInt32} (hnd : xs.Nodup) (h0 : 0 ∉ xs) :
    xs.length < 2 ^ 32 := by
  have hmap : (xs.map UInt32.toNat).Nodup := hnd.map fun _ _ h => eq_of_toNat h
  have hsub : (xs.map UInt32.toNat).toFinset ⊆ Finset.Ioo 0 (2 ^ 32) := by
    intro n hn
    obtain ⟨a, ha, rfl⟩ := List.mem_map.1 (List.mem_toFinset.1 hn)
    exact Finset.mem_Ioo.2 ⟨toNat_pos fun h => h0 (h ▸ ha), a.toNat_lt⟩
  have hcard := Finset.card_le_card hsub
  rw [List.toFinset_card_of_nodup hmap, List.length_map, Nat.card_Ioo] at hcard
  omega

/-! ### Masks -/

/-- The low `k` bits of a word are its remainder. -/
theorem toNat_and_low (a : UInt32) (k : ℕ) (hk : k ≤ 32) :
    (a &&& UInt32.ofNat (2 ^ k - 1)).toNat = a.toNat % 2 ^ k := by
  have hlt : 2 ^ k - 1 < 2 ^ 32 := by
    have := Nat.pow_le_pow_right (n := 2) (by decide) hk
    have := Nat.two_pow_pos k
    omega
  rw [UInt32.toNat_and, toNat_ofNat_of_lt hlt, Nat.and_two_pow_sub_one_eq_mod]

/-- A natural number below `2 ^ 32` has no bit from 32 on. -/
theorem testBit_toNat_of_le (a : UInt32) {i : ℕ} (hi : 32 ≤ i) : a.toNat.testBit i = false :=
  Nat.testBit_lt_two_pow
    (lt_of_lt_of_le a.toNat_lt (Nat.pow_le_pow_right (by decide) hi))

/-- Clearing the low `k` bits rounds down to a multiple of `2 ^ k`. -/
theorem toNat_and_high (a : UInt32) (k : ℕ) (hk : k ≤ 32) :
    (a &&& UInt32.ofNat ((2 ^ (32 - k) - 1) <<< k)).toNat = a.toNat / 2 ^ k * 2 ^ k := by
  have hlt : (2 ^ (32 - k) - 1) <<< k < 2 ^ 32 := by
    rw [Nat.shiftLeft_eq]
    calc (2 ^ (32 - k) - 1) * 2 ^ k < 2 ^ (32 - k) * 2 ^ k :=
          Nat.mul_lt_mul_of_pos_right (Nat.sub_lt (Nat.two_pow_pos _) (by decide))
            (Nat.two_pow_pos k)
      _ = 2 ^ 32 := by rw [← Nat.pow_add, Nat.sub_add_cancel hk]
  rw [UInt32.toNat_and, toNat_ofNat_of_lt hlt]
  rw [show a.toNat / 2 ^ k * 2 ^ k = (a.toNat >>> k) <<< k by
    rw [Nat.shiftRight_eq_div_pow, Nat.shiftLeft_eq]]
  apply Nat.eq_of_testBit_eq
  intro i
  simp only [Nat.testBit_and, Nat.testBit_shiftLeft, Nat.testBit_shiftRight,
    Nat.testBit_two_pow_sub_one]
  by_cases hik : k ≤ i
  · rw [show k + (i - k) = i by omega]
    by_cases hi : i < 32
    · simp [hik, show i - k < 32 - k by omega]
    · simp [testBit_toNat_of_le a (by omega : 32 ≤ i)]
  · simp [hik]

/-- A field of `w` bits starting at bit `s`. -/
theorem toNat_shiftRight_and (a : UInt32) (s w : ℕ) (hs : s < 32) (hw : w ≤ 32) :
    ((a >>> UInt32.ofNat s) &&& UInt32.ofNat (2 ^ w - 1)).toNat = a.toNat / 2 ^ s % 2 ^ w := by
  rw [toNat_and_low _ w hw, UInt32.toNat_shiftRight, toNat_ofNat_of_lt (by omega),
    Nat.mod_eq_of_lt hs, Nat.shiftRight_eq_div_pow]

/-- Setting bits below `k` in a word whose low `k` bits are clear is an addition. -/
theorem toNat_or_low {a b : UInt32} (k : ℕ) (ha : a.toNat % 2 ^ k = 0) (hb : b.toNat < 2 ^ k) :
    (a ||| b).toNat = a.toNat + b.toNat := by
  rw [UInt32.toNat_or]
  have h := Nat.two_pow_add_eq_or_of_lt hb (a.toNat / 2 ^ k)
  rw [Nat.mul_div_cancel' (Nat.dvd_of_mod_eq_zero ha)] at h
  exact h.symm

end Word32
