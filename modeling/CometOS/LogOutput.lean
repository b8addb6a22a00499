import CometOS.Log

/-!
# What `vasprintf` stores

Each piece of a format moves the cursor on by the number of characters it takes, and has stored
something at each place passed.  `print_hex` stores the right text; `print_dec` does so as long as the
largest number of so many digits has not run over.
-/

namespace CometOS

open ByteMemory CString Loop Numeral Word32

/-! ### Storing behind the cursor -/

namespace LogBuffer

variable {b b' b'' : LogBuffer} {c : UInt8} {xs ys : List UInt8} {n m : ℕ}

theorem Advanced.refl (b : LogBuffer) : Advanced b b 0 :=
  ⟨(UInt32.add_zero _).symm, fun k => by simp⟩

theorem Advanced.trans (h : Advanced b b' n) (h' : Advanced b' b'' m) : Advanced b b'' (n + m) := by
  refine ⟨?_, fun k => ?_⟩
  · rw [h'.ptr, h.ptr, UInt32.ofNat_add, UInt32.add_assoc]
  · rw [h'.stores, h.stores, h.ptr, or_assoc]
    refine or_congr_right ⟨?_, ?_⟩
    · rintro (⟨i, hi, rfl⟩ | ⟨i, hi, rfl⟩)
      · exact ⟨i, by omega, rfl⟩
      · exact ⟨n + i, by omega, by rw [UInt32.ofNat_add, UInt32.add_assoc]⟩
    · rintro ⟨i, hi, rfl⟩
      by_cases hin : i < n
      · exact Or.inl ⟨i, hin, rfl⟩
      · refine Or.inr ⟨i - n, by omega, ?_⟩
        rw [UInt32.add_assoc, ← UInt32.ofNat_add, Nat.add_sub_cancel' (by omega)]

theorem Appends.nil (b : LogBuffer) : Appends b b [] :=
  ⟨Advanced.refl b, fun i hi => absurd hi (Nat.not_lt_zero i), fun _ _ => rfl⟩

/-- A text that goes round the address space would run into itself. -/
theorem Appends.trans (h : Appends b b' xs) (h' : Appends b' b'' ys)
    (hlen : xs.length + ys.length ≤ 2 ^ 32) : Appends b b'' (xs ++ ys) := by
  refine ⟨?_, fun i hi => ?_, fun x hx => ?_⟩
  · rw [List.length_append]
    exact h.toAdvanced.trans h'.toAdvanced
  · rw [List.length_append] at hi
    by_cases hin : i < xs.length
    · have hfar : ys.length ≤ (b.ptr + UInt32.ofNat i - b'.ptr).toNat := by
        have hi' : (UInt32.ofNat i).toNat = i := toNat_ofNat_of_lt (by omega)
        rw [h.ptr, show b.ptr + UInt32.ofNat i - (b.ptr + UInt32.ofNat xs.length) =
          UInt32.ofNat i - UInt32.ofNat xs.length by grind, UInt32.toNat_sub, hi',
          UInt32.toNat_ofNat']
        omega
      rw [h'.frame _ hfar, h.here i hin, List.getElem_append_left]
    · have hplace : b.ptr + UInt32.ofNat i = b'.ptr + UInt32.ofNat (i - xs.length) := by
        rw [h.ptr, UInt32.add_assoc, ← UInt32.ofNat_add, Nat.add_sub_cancel' (by omega)]
      rw [hplace, h'.here (i - xs.length) (by omega), List.getElem_append_right (by omega)]
  · rw [List.length_append] at hx
    have hxlt := (x - b.ptr).toNat_lt
    have hfar : ys.length ≤ (x - b'.ptr).toNat := by
      have hlen' : (UInt32.ofNat xs.length).toNat = xs.length ∨ ys.length = 0 := by
        by_cases hys : ys.length = 0
        · exact Or.inr hys
        · exact Or.inl (toNat_ofNat_of_lt (by omega))
      rcases hlen' with hlen' | hzero
      · rw [h.ptr, show x - (b.ptr + UInt32.ofNat xs.length) =
          x - b.ptr - UInt32.ofNat xs.length by grind, toNat_sub_of_le (by omega), hlen']
        omega
      · omega
    rw [h'.frame x hfar, h.frame x (by omega)]

theorem append_appends (b : LogBuffer) (c : UInt8) : Appends b (b.append c) [c] := by
  refine ⟨⟨rfl, fun k => ?_⟩, fun i hi => ?_, fun x hx => ?_⟩
  · show k ∈ b.stores ++ [b.ptr] ↔ _
    rw [List.mem_append, List.mem_singleton]
    refine or_congr_right ⟨?_, ?_⟩
    · rintro rfl
      exact ⟨0, Nat.zero_lt_one, (UInt32.add_zero _).symm⟩
    · rintro ⟨i, hi, rfl⟩
      obtain rfl : i = 0 := Nat.lt_one_iff.1 hi
      exact UInt32.add_zero _
  · obtain rfl : i = 0 := Nat.lt_one_iff.1 hi
    show Function.update b.data b.ptr c (b.ptr + 0) = c
    rw [UInt32.add_zero, Function.update_self]
  · refine Function.update_of_ne (fun he => ?_) _ _
    rw [he, UInt32.sub_self, List.length_singleton] at hx
    exact absurd hx (by decide)

theorem append_advanced (b : LogBuffer) (c : UInt8) : Advanced b (b.append c) 1 :=
  (append_appends b c).toAdvanced

theorem appendAll_advanced (b : LogBuffer) (xs : List UInt8) :
    Advanced b (b.appendAll xs) xs.length := by
  induction xs generalizing b with
  | nil => exact Advanced.refl b
  | cons x xs ih =>
    rw [List.length_cons, Nat.add_comm]
    exact (append_advanced b x).trans (ih (b.append x))

theorem appendAll_appends (b : LogBuffer) (h : xs.length ≤ 2 ^ 32) :
    Appends b (b.appendAll xs) xs := by
  induction xs generalizing b with
  | nil => exact Appends.nil b
  | cons x xs ih =>
    rw [List.length_cons] at h
    exact (append_appends b x).trans (ih (b.append x) (by omega)) (by simp; omega)

theorem appendAll_append (b : LogBuffer) (xs ys : List UInt8) :
    b.appendAll (xs ++ ys) = (b.appendAll xs).appendAll ys := List.foldl_append

/-- The turns of a loop that stores the same character again and again. -/
theorem iterate_append (b : LogBuffer) (c : UInt8) (k : ℕ) :
    (fun b : LogBuffer => b.append c)^[k] b = b.appendAll (List.replicate k c) := by
  induction k generalizing b with
  | zero => rfl
  | succ k ih =>
    rw [Function.iterate_succ_apply, ih, List.replicate_succ]
    rfl

/-- Two texts behind the same place are equally long. -/
theorem Appends.length_eq (h : Appends b b' xs) (h' : Appends b b' ys) (hx : xs.length < 2 ^ 32)
    (hy : ys.length < 2 ^ 32) : xs.length = ys.length := by
  have hsame : UInt32.ofNat xs.length = UInt32.ofNat ys.length := by
    have := h.ptr.symm.trans h'.ptr
    grind
  rw [← toNat_ofNat_of_lt hx, ← toNat_ofNat_of_lt hy, hsame]

end LogBuffer

open LogBuffer

/-! ### Counting digits -/

/-- The largest number of `k + 1` digits, modulo `2 ^ 32`. -/
def limit (base last : UInt32) : ℕ → UInt32
  | 0 => last
  | k + 1 => limit base last k * base + last

theorem iterate_limit (base last : UInt32) (k : ℕ) :
    (fun p : UInt32 × UInt32 => (p.1 + 1, p.2 * base + last))^[k] (1, last) =
      (UInt32.ofNat (k + 1), limit base last k) := by
  induction k with
  | zero => rfl
  | succ k ih =>
    rw [Function.iterate_succ_apply', ih, ofNat_succ (k + 1)]
    rfl

/-- The count is that of the first limit that is not below `value`. -/
theorem digitCount_eq {base last value : UInt32} {n : ℕ} (hn : n < 2 ^ 32)
    (hbelow : ∀ k < n, limit base last k < value) (hat : value ≤ limit base last n) :
    digitCount base last value = some (UInt32.ofNat (n + 1)) := by
  have hloop := whileLoop_first (f := fun p : UInt32 × UInt32 => (p.1 + 1, p.2 * base + last))
    (c := fun p => decide (p.2 < value ∧ p.2 < 0xFFFFFFFF)) n (1, last)
    (fun k hk => ?_) ?_ (2 ^ 32) hn
  · rw [digitCount, hloop, iterate_limit]
    rfl
  · rw [iterate_limit, decide_eq_true_iff]
    have hlt := hbelow k hk
    refine ⟨hlt, ?_⟩
    have hv := value.toNat_lt
    rw [UInt32.lt_iff_toNat_lt] at hlt ⊢
    show (limit base last k).toNat < 4294967295
    omega
  · rw [iterate_limit, decide_eq_false_iff_not]
    rintro ⟨hlt, -⟩
    exact absurd hlt (UInt32.not_lt.2 hat)

/-- As long as the limits have not run over, the count is the number of digits. -/
theorem digitCount_of_le (base last : UInt32) {value : UInt32} {m : ℕ} (hb : 2 ≤ base.toNat)
    (hlimit : ∀ k < m, (limit base last k).toNat = base.toNat ^ (k + 1) - 1)
    (hlog : Nat.log base.toNat value.toNat ≤ m) (hm : m < 2 ^ 32)
    (hlast : value ≤ limit base last m ∨ Nat.log base.toNat value.toNat < m) :
    digitCount base last value = some (UInt32.ofNat (Nat.log base.toNat value.toNat + 1)) := by
  refine digitCount_eq (by omega) (fun k hk => ?_) ?_
  · have hne : value.toNat ≠ 0 := by
      intro h0
      rw [h0, Nat.log_zero_right] at hk
      omega
    have hpow := Nat.pow_log_le_self base.toNat hne
    have hmono := Nat.pow_le_pow_right (n := base.toNat) (by omega) (show k + 1 ≤ _ from hk)
    have hpos := Nat.pow_pos (n := k + 1) (show 0 < base.toNat by omega)
    rw [UInt32.lt_iff_toNat_lt, hlimit k (by omega)]
    omega
  · by_cases hlt : Nat.log base.toNat value.toNat < m
    · have hpow := Nat.lt_pow_succ_log_self (b := base.toNat) (by omega) value.toNat
      rw [UInt32.le_iff_toNat_le, hlimit _ hlt]
      exact Nat.le_sub_one_of_lt hpow
    · rw [show Nat.log base.toNat value.toNat = m by omega]
      exact hlast.resolve_right hlt

/-! ### `print_hex` -/

/-- No 32-bit value has more than eight hexadecimal digits. -/
theorem hexNumeral_length_le (value : UInt32) : (numeral lowerDigit 16 value.toNat).length ≤ 8 :=
  numeral_length_le lowerDigit (by decide) (by decide) (by exact value.toNat_lt)

theorem hexWidth_eq (value : UInt32) :
    hexWidth value = some (UInt32.ofNat (numeral lowerDigit 16 value.toNat).length) := by
  rw [numeral_length lowerDigit (by decide)]
  have hlt : value.toNat < 16 ^ 8 := value.toNat_lt
  have hlog : Nat.log 16 value.toNat ≤ 7 := by
    have := Nat.log_lt_of_lt_pow' (b := 16) (x := 8) (by decide) hlt
    omega
  refine digitCount_of_le 0x10 0x0F (m := 7) (by decide) (by decide) hlog (by decide) ?_
  left
  rw [UInt32.le_iff_toNat_le]
  show value.toNat ≤ 4294967295
  omega

/-- Zeros up to the width. -/
theorem padHex_eq (nWidth : UInt32) (i : ℤ) (b : LogBuffer) (hi : i < 2 ^ 31)
    (hn : 0 ≤ nWidth.toInt32.toInt) : padHex nWidth i b =
      some (b.appendAll (List.replicate (i - nWidth.toInt32.toInt).toNat 48)) := by
  have hiter : ∀ k : ℕ, (fun p : ℤ × LogBuffer => (p.1 - 1, p.2.append 48))^[k] (i, b) =
      (i - k, b.appendAll (List.replicate k 48)) := by
    intro k
    rw [← iterate_append]
    induction k with
    | zero => simp
    | succ k ih =>
      rw [Function.iterate_succ_apply', ih, Function.iterate_succ_apply']
      simp only [Prod.mk.injEq, and_true]
      push_cast
      ring
  have hloop := whileLoop_first (f := fun p : ℤ × LogBuffer => (p.1 - 1, p.2.append 48))
    (c := fun p => decide (nWidth.toInt32.toInt < p.1)) (i - nWidth.toInt32.toInt).toNat (i, b)
    (fun k hk => ?_) ?_ (2 ^ 32) (by omega)
  · rw [padHex, hloop, hiter]
    rfl
  · rw [hiter, decide_eq_true_iff]
    show _ < i - (k : ℤ)
    omega
  · rw [hiter, decide_eq_false_iff_not]
    show ¬ _ < i - ((i - nWidth.toInt32.toInt).toNat : ℤ)
    omega

theorem hexDigit_eq {k : UInt32} (hk : k.toNat < 16) : hexDigit k = lowerDigit k.toNat := by
  have hall : ∀ n < 16, ([48, 49, 50, 51, 52, 53, 54, 55, 56, 57, 97, 98, 99, 100, 101, 102] :
      List UInt8).getD n 0 = lowerDigit n := by decide
  exact hall k.toNat hk

theorem storeHexDigits_eq (value : UInt32) (n : ℕ) (hn : n ≤ 8) (b : LogBuffer) :
    storeHexDigits value n b = b.appendAll (lastDigits lowerDigit 16 n value.toNat) := by
  induction n generalizing b with
  | zero => rfl
  | succ n ih =>
    have hdigit : ((value >>> UInt32.ofNat (n * 4)) &&& 0xF).toNat =
        value.toNat / 16 ^ n % 16 := by
      have h := toNat_shiftRight_and value (n * 4) 4 (by omega) (by decide)
      rw [show 2 ^ (n * 4) = 16 ^ n by rw [Nat.mul_comm, Nat.pow_mul]] at h
      exact h
    rw [storeHexDigits, ih (by omega), hexDigit_eq (by rw [hdigit]; omega), hdigit,
      lastDigits_succ]
    rfl

/-- The text `print_hex` stores: the numeral, with zeros in front up to the width. -/
def hexText (value width : UInt32) : List UInt8 :=
  List.replicate ((hexPad width).toNat - (numeral lowerDigit 16 value.toNat).length) 48 ++
    numeral lowerDigit 16 value.toNat

theorem hexPad_lt (width : UInt32) : hexPad width < 2 ^ 31 := by
  have h : width.toInt32.toInt < 2 ^ 31 := Int32.toInt_lt _
  unfold hexPad
  split
  · decide
  · exact h

theorem printHex_eq (value width : UInt32) (b : LogBuffer) :
    printHex value width b = some (b.appendAll (hexText value width)) := by
  have hlen := hexNumeral_length_le value
  have hnat : (UInt32.ofNat (numeral lowerDigit 16 value.toNat).length).toNat =
      (numeral lowerDigit 16 value.toNat).length := toNat_ofNat_of_lt (by omega)
  have hint : (UInt32.ofNat (numeral lowerDigit 16 value.toNat).length).toInt32.toInt =
      (numeral lowerDigit 16 value.toNat).length := by
    rw [toInt_toInt32, hnat, if_pos (by omega)]
  rw [printHex, hexWidth_eq]
  show (padHex _ _ b).bind _ = _
  rw [padHex_eq _ _ _ (hexPad_lt width) (by omega), Option.bind_some, hnat,
    storeHexDigits_eq _ _ hlen, lastDigits_eq lowerDigit (by decide) le_rfl, Nat.sub_self, hint,
    hexText, show (hexPad width - ((numeral lowerDigit 16 value.toNat).length : ℤ)).toNat =
      (hexPad width).toNat - (numeral lowerDigit 16 value.toNat).length by omega,
    ← appendAll_append]
  rfl

/-! ### `print_dec` -/

/-- How many digits `print_dec` stores: those of the value, up to the limit of ten digits, which has
run over to 1410065407; above it the count goes on to the first limit that is large enough by
chance. -/
def decLength (value : UInt32) : ℕ :=
  if value ≤ 1410065407 then (numeral lowerDigit 10 value.toNat).length
  else if value ≤ 3567587327 then 12
  else if value ≤ 3735027711 then 21
  else if value ≤ 4135583743 then 23
  else 32

/-- The limits below that of `n + 1` digits are all at most `low`. -/
theorem decWidth_above {value low : UInt32} {n : ℕ} (hn : n < 2 ^ 32)
    (hlow : ∀ k < n, limit 10 9 k ≤ low) (hlt : low < value) (hat : value ≤ limit 10 9 n) :
    decWidth value = some (UInt32.ofNat (n + 1)) :=
  digitCount_eq hn (fun k hk => UInt32.lt_of_le_of_lt (hlow k hk) hlt) hat

theorem decWidth_eq (value : UInt32) : decWidth value = some (UInt32.ofNat (decLength value)) := by
  have hv := value.toNat_lt
  unfold decLength
  split_ifs with h₁ h₂ h₃ h₄
  · rw [numeral_length lowerDigit (by decide)]
    have h₁' : value.toNat ≤ 1410065407 := UInt32.le_iff_toNat_le.1 h₁
    have hval : value.toNat < 10 ^ 10 := by omega
    have hlog : Nat.log 10 value.toNat ≤ 9 :=
      Nat.le_of_lt_succ (Nat.log_lt_of_lt_pow' (by decide) hval)
    exact digitCount_of_le 10 9 (m := 9) (by decide) (by decide) hlog (by decide)
      (Or.inl h₁)
  · exact decWidth_above (n := 11) (by decide) (by decide) (UInt32.not_le.1 h₁) h₂
  · exact decWidth_above (n := 20) (by decide) (by decide) (UInt32.not_le.1 h₂) h₃
  · exact decWidth_above (n := 22) (by decide) (by decide) (UInt32.not_le.1 h₃) h₄
  · refine decWidth_above (n := 31) (by decide) (by decide) (UInt32.not_le.1 h₄) ?_
    rw [show limit 10 9 31 = 0xFFFFFFFF by decide, UInt32.le_iff_toNat_le]
    exact Nat.le_of_lt_succ hv

theorem numeral_length_le_ten (value : UInt32) : (numeral lowerDigit 10 value.toNat).length ≤ 10 :=
  numeral_length_le lowerDigit (by decide) (by decide)
    (lt_trans value.toNat_lt (by decide : 2 ^ 32 < 10 ^ 10))

theorem decLength_bounds (value : UInt32) :
    (numeral lowerDigit 10 value.toNat).length ≤ decLength value ∧ decLength value ≤ 32 := by
  have hten := numeral_length_le_ten value
  unfold decLength
  split_ifs
  · omega
  · omega
  · omega
  · omega
  · omega

theorem padDec_eq (nWidth width : UInt32) (b : LogBuffer) :
    padDec nWidth width b =
      some (b.appendAll (List.replicate (width.toNat - nWidth.toNat) 48)) := by
  have hiter : ∀ k : ℕ, (fun p : UInt32 × LogBuffer => (p.1 + 1, p.2.append 48))^[k] (0, b) =
      (UInt32.ofNat k, b.appendAll (List.replicate k 48)) := by
    intro k
    rw [← iterate_append]
    induction k with
    | zero => rfl
    | succ k ih => rw [Function.iterate_succ_apply', ih, Function.iterate_succ_apply', ofNat_succ]
  have hwidth := width.toNat_lt
  have hsum : ∀ k ≤ width.toNat - nWidth.toNat, nWidth.toNat ≤ width.toNat →
      (nWidth + UInt32.ofNat k).toNat = nWidth.toNat + k := by
    intro k hk hle
    have hk' : (UInt32.ofNat k).toNat = k := toNat_ofNat_of_lt (by omega)
    rw [toNat_add_of_lt (by omega), hk']
  have hloop := whileLoop_first (f := fun p : UInt32 × LogBuffer => (p.1 + 1, p.2.append 48))
    (c := fun p => decide (nWidth + p.1 < width)) (width.toNat - nWidth.toNat) (0, b)
    (fun k hk => ?_) ?_ (2 ^ 32) (by omega)
  · rw [padDec, hloop, hiter]
    rfl
  · rw [hiter, decide_eq_true_iff, UInt32.lt_iff_toNat_lt, hsum k (by omega) (by omega)]
    omega
  · rw [hiter, decide_eq_false_iff_not, UInt32.lt_iff_toNat_lt]
    by_cases hle : nWidth.toNat ≤ width.toNat
    · rw [hsum _ le_rfl hle]
      omega
    · rw [show width.toNat - nWidth.toNat = 0 by omega]
      show ¬ (nWidth + 0).toNat < width.toNat
      rw [UInt32.add_zero]
      omega

theorem storeDigits_ptr (n : ℕ) (value : UInt32) (b : LogBuffer) :
    (storeDigits n value b).ptr = b.ptr := by
  induction n generalizing value b with
  | zero => rfl
  | succ n ih => exact ih _ _

theorem decDigit_eq (value : UInt32) : (value % 10 + 48).toUInt8 = lowerDigit (value.toNat % 10) := by
  have hmod : (value % 10).toNat = value.toNat % 10 := UInt32.toNat_mod value 10
  have hsum : (value % 10 + 48).toNat = value.toNat % 10 + 48 := by
    rw [toNat_add_of_lt (by rw [hmod, show (48 : UInt32).toNat = 48 from rfl]; omega), hmod]
    rfl
  apply UInt8.toNat_inj.1
  rw [UInt32.toNat_toUInt8, hsum, lowerDigit, if_pos (by omega), UInt8.toNat_ofNat']
  omega

/-- The digits go to the places from the cursor on, the last one first. -/
theorem storeDigits_appends (n : ℕ) (hn : n < 2 ^ 32) (value : UInt32) (b : LogBuffer) :
    Appends b { storeDigits n value b with ptr := b.ptr + UInt32.ofNat n }
      (lastDigits lowerDigit 10 n value.toNat) := by
  induction n generalizing value b with
  | zero =>
    exact ⟨⟨rfl, fun k => by simp [storeDigits, lastDigits]⟩,
      fun i hi => absurd hi (Nat.not_lt_zero i), fun _ _ => rfl⟩
  | succ n ih =>
    have hlen := lastDigits_length lowerDigit 10 n (value.toNat / 10)
    have hdist : (b.ptr + UInt32.ofNat n - b.ptr).toNat = n := by
      rw [show b.ptr + UInt32.ofNat n - b.ptr = UInt32.ofNat n by grind,
        toNat_ofNat_of_lt (by omega)]
    have hih := ih (by omega) (value / 10)
      (b.store (b.ptr + UInt32.ofNat n) (value % 10 + 48).toUInt8)
    rw [UInt32.toNat_div, show (10 : UInt32).toNat = 10 from rfl] at hih
    rw [lastDigits]
    refine ⟨⟨?_, fun k => ?_⟩, fun i hi => ?_, fun x hx => ?_⟩
    · rw [List.length_append, hlen, List.length_singleton]
    · rw [List.length_append, hlen, List.length_singleton]
      refine (hih.stores k).trans ?_
      rw [hlen]
      show k ∈ b.stores ++ [b.ptr + UInt32.ofNat n] ∨ _ ↔ _
      rw [List.mem_append, List.mem_singleton, or_assoc]
      refine or_congr_right ⟨?_, ?_⟩
      · rintro (hk | ⟨i, hi, hk⟩)
        · exact ⟨n, by omega, hk⟩
        · exact ⟨i, by omega, hk⟩
      · rintro ⟨i, hi, hk⟩
        by_cases hin : i = n
        · exact Or.inl (hin ▸ hk)
        · exact Or.inr ⟨i, by omega, hk⟩
    · rw [List.length_append, hlen, List.length_singleton] at hi
      by_cases hin : i < n
      · rw [List.getElem_append_left (by omega)]
        exact hih.here i (by omega)
      · obtain rfl : i = n := by omega
        rw [List.getElem_append_right (by omega)]
        refine (hih.frame _ (by rw [hlen]; exact hdist.ge)).trans ?_
        show Function.update b.data _ _ _ = _
        rw [Function.update_self, decDigit_eq]
        simp
    · rw [List.length_append, hlen, List.length_singleton] at hx
      refine (hih.frame x (by rw [hlen]; exact le_of_lt hx)).trans ?_
      refine Function.update_of_ne (fun he => ?_) _ _
      rw [he, hdist] at hx
      omega

/-- The text `print_dec` stores. -/
def decText (value width : UInt32) : List UInt8 :=
  List.replicate (width.toNat - decLength value) 48 ++
    lastDigits lowerDigit 10 (decLength value) value.toNat

theorem decText_length (value width : UInt32) :
    (decText value width).length = max width.toNat (decLength value) := by
  rw [decText, List.length_append, List.length_replicate, lastDigits_length]
  omega

theorem printDec_appends (value width : UInt32) (b : LogBuffer) :
    ∃ b', printDec value width b = some b' ∧ Appends b b' (decText value width) := by
  have hwidth := width.toNat_lt
  have hlen := (decLength_bounds value).2
  have hnat : (UInt32.ofNat (decLength value)).toNat = decLength value :=
    toNat_ofNat_of_lt (by omega)
  refine ⟨_, ?_, (appendAll_appends b (by rw [List.length_replicate]; omega)).trans
    (storeDigits_appends (decLength value) (by omega) value _) ?_⟩
  · rw [printDec, decWidth_eq]
    show (padDec _ _ b).bind _ = _
    rw [padDec_eq, Option.bind_some, hnat]
    simp only [storeDigits_ptr]
  · rw [List.length_replicate, lastDigits_length]
    omega

/-- The decimal digits of `value` without superfluous zeros, or with as many in front as bring them
to `width` characters. -/
def decimalText (value width : UInt32) : List UInt8 :=
  List.replicate (width.toNat - (numeral lowerDigit 10 value.toNat).length) 48 ++
    numeral lowerDigit 10 value.toNat

theorem decimalText_length (value width : UInt32) : (decimalText value width).length =
    max width.toNat (numeral lowerDigit 10 value.toNat).length := by
  rw [decimalText, List.length_append, List.length_replicate]
  omega

/-- Too many digits do no harm where the width asks for as many characters. -/
theorem decText_eq_decimalText {value width : UInt32}
    (h : decLength value = (numeral lowerDigit 10 value.toNat).length ∨
      decLength value ≤ width.toNat) : decText value width = decimalText value width := by
  have hle := (decLength_bounds value).1
  rw [decText, lastDigits_eq lowerDigit (by decide) hle, ← List.append_assoc,
    show lowerDigit 0 = 48 from rfl, List.replicate_append_replicate, decimalText]
  congr 2
  omega

/-- **`print_dec` stores the decimal text** of a value, and moves the cursor on behind it, exactly
for the values up to 1410065407 and for larger ones with a width that takes all the digits it
counts. -/
theorem printDec_right_iff (value width : UInt32) (b : LogBuffer) :
    (∃ b', printDec value width b = some b' ∧ Appends b b' (decimalText value width)) ↔
      value ≤ 1410065407 ∨ (value ≤ 3567587327 ∧ 12 ≤ width) ∨
        (value ≤ 3735027711 ∧ 21 ≤ width) ∨ (value ≤ 4135583743 ∧ 23 ≤ width) ∨ 32 ≤ width := by
  obtain ⟨b', hb', happ⟩ := printDec_appends value width b
  have hten := numeral_length_le_ten value
  have hwidth := width.toNat_lt
  have hfits : (decLength value = (numeral lowerDigit 10 value.toNat).length ∨
      decLength value ≤ width.toNat) ↔
      value ≤ 1410065407 ∨ (value ≤ 3567587327 ∧ 12 ≤ width) ∨
        (value ≤ 3735027711 ∧ 21 ≤ width) ∨ (value ≤ 4135583743 ∧ 23 ≤ width) ∨ 32 ≤ width := by
    simp only [decLength, UInt32.le_iff_toNat_le]
    simp only [show (1410065407 : UInt32).toNat = 1410065407 from rfl,
      show (3567587327 : UInt32).toNat = 3567587327 from rfl,
      show (3735027711 : UInt32).toNat = 3735027711 from rfl,
      show (4135583743 : UInt32).toNat = 4135583743 from rfl,
      show (12 : UInt32).toNat = 12 from rfl, show (21 : UInt32).toNat = 21 from rfl,
      show (23 : UInt32).toNat = 23 from rfl, show (32 : UInt32).toNat = 32 from rfl]
    split_ifs
    · omega
    · omega
    · omega
    · omega
    · omega
  rw [← hfits]
  constructor
  · rintro ⟨b'', hb'', happ'⟩
    obtain rfl := Option.some.inj (hb'.symm.trans hb'')
    have hsame := happ.length_eq happ' (by rw [decText_length]; have := decLength_bounds value; omega)
      (by rw [decimalText_length]; omega)
    rw [decText_length, decimalText_length] at hsame
    omega
  · intro h
    exact ⟨b', hb', decText_eq_decimalText h ▸ happ⟩

/-- 2000000000 comes out with two zeros in front. -/
theorem printDec_twoBillion :
    ¬ ∃ b', printDec 2000000000 0 ⟨fun _ => 0, 0, []⟩ = some b' ∧
      Appends ⟨fun _ => 0, 0, []⟩ b' (decimalText 2000000000 0) := by
  rintro ⟨b', hb', happ'⟩
  obtain ⟨b'', hb'', happ⟩ := printDec_appends 2000000000 0 ⟨fun _ => 0, 0, []⟩
  obtain rfl := Option.some.inj (hb'.symm.trans hb'')
  have hten := numeral_length_le_ten 2000000000
  have htwelve : decLength 2000000000 = 12 := by decide
  have hsame := happ.length_eq happ' (by rw [decText_length, htwelve]; decide)
    (by rw [decimalText_length]; show max 0 _ < 2 ^ 32; omega)
  rw [decText_length, decimalText_length, htwelve] at hsame
  have hmax : max (0 : UInt32).toNat 12 = 12 := by decide
  have hmax' : max (0 : UInt32).toNat (numeral lowerDigit 10 (2000000000 : UInt32).toNat).length =
      (numeral lowerDigit 10 (2000000000 : UInt32).toNat).length := Nat.zero_max _
  omega

end CometOS
