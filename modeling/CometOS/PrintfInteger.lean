import CometOS.PrintfOutput

/-!
# The digits of `convert_integer` (`libc/stdio/printf.c`)

`convert_integer` finds out how many digits there are in one loop and writes them in another.  Both
go by repeated division, so that they agree, and what is written reads back as the value.
-/

namespace CometOS

open Numeral

/-- `sizeof(output)` in `printf`: `sizeof(uintmax_t) * 3`. -/
def sizeofOutput : ℕ := 8 * 3

/-- `text` writes `value` in base `base`, with the digits of a table: there are no leading zeros, and
read back it is the value. -/
structure DigitText (digits : List UInt8) (base value : ℕ) (text : List UInt8) : Prop where
  digit : ∀ c ∈ text, c ∈ digits.take base
  zero : value = 0 → text = [48]
  leading : value ≠ 0 → text.head? ≠ some 48
  value : readNumeral digits.idxOf base text = value

/-- The table of a conversion holds sixteen digits, each once, and starts with a zero. -/
theorem digitsOf_idxOf (conversion : UInt8) {k : ℕ} (hk : k < 16) :
    (digitsOf conversion).idxOf ((digitsOf conversion).getD k 0) = k := by
  have hall : ∀ upper : Bool, ∀ k < 16, (digitsOf (if upper then 88 else 120)).idxOf
      ((digitsOf (if upper then 88 else 120)).getD k 0) = k := by decide
  by_cases hupper : conversion = 88
  · rw [hupper]
    exact hall true k hk
  · rw [show digitsOf conversion = digitsOf 120 from if_neg hupper]
    exact hall false k hk

theorem digitsOf_length (conversion : UInt8) : (digitsOf conversion).length = 16 := by
  rw [digitsOf]
  split
  · rfl
  · rfl

theorem digitsOf_zero (conversion : UInt8) : (digitsOf conversion).getD 0 0 = 48 := by
  rw [digitsOf]
  split
  · rfl
  · rfl

/-- The numeral is such a text. -/
theorem digitText_numeral (conversion : UInt8) {base : ℕ} (hb : 2 ≤ base) (hb' : base ≤ 16) (value : ℕ) :
    DigitText (digitsOf conversion) base value
      (numeral (fun k => (digitsOf conversion).getD k 0) base value) where
  digit c hc := by
    obtain ⟨k, hk, rfl⟩ := mem_numeral _ hb hc
    have hlen := digitsOf_length conversion
    have hk' : k < (digitsOf conversion).length := by omega
    exact List.mem_take_iff_getElem.2 ⟨k, by omega, List.getElem_eq_getD (h := hk') 0⟩
  zero h := by
    rw [h, numeral_of_lt _ (by omega), digitsOf_zero]
  leading h := by
    obtain ⟨k, hpos, hk, hhead⟩ := numeral_head (fun k => (digitsOf conversion).getD k 0) hb h
    rw [hhead]
    intro hzero
    -- a digit that looks like a zero is one
    have hidx := digitsOf_idxOf conversion (show k < 16 by omega)
    rw [Option.some.inj hzero, ← digitsOf_zero conversion, digitsOf_idxOf conversion (by decide)] at hidx
    omega
  value := readNumeral_numeral _ hb fun k hk => digitsOf_idxOf conversion (by omega)

/-- It fits the buffer for every 64-bit value. -/
theorem numeral_length_le_output (digit : ℕ → UInt8) (value : UInt64) {base : ℕ} (hb : 8 ≤ base) :
    (numeral digit base value.toNat).length ≤ sizeofOutput := by
  apply numeral_length_le digit (by omega) (by decide)
  calc value.toNat < 2 ^ 64 := value.toNat_lt
    _ ≤ 8 ^ sizeofOutput := by decide
    _ ≤ base ^ sizeofOutput := Nat.pow_le_pow_left hb sizeofOutput

/-- **`convert_integer`, for each of `printf`'s bases.**  Whatever `destination` holds, the same text
is written to its start and its length returned, and nothing is written behind it. -/
theorem convertInteger_right (value base : UInt64) (conversion : UInt8)
    (hbase : base = 8 ∨ base = 10 ∨ base = 16) :
    ∃ text, DigitText (digitsOf conversion) base.toNat value.toNat text ∧
      text.length ≤ sizeofOutput ∧
      ∀ destination, ∃ destination',
        convertInteger destination value base (digitsOf conversion) = some (destination', text.length) ∧
        (∀ i (hi : i < text.length), destination' i = text[i]) ∧
        ∀ i, text.length ≤ i → destination' i = destination i := by
  have hb : 8 ≤ base.toNat ∧ base.toNat ≤ 16 := by
    rcases hbase with rfl | rfl | rfl
    · decide
    · decide
    · decide
  refine ⟨numeral (fun k => (digitsOf conversion).getD k 0) base.toNat value.toNat, ?_, ?_, ?_⟩
  · exact digitText_numeral conversion (by omega) hb.2 value.toNat
  · exact numeral_length_le_output _ value hb.1
  · exact convertInteger_eq _ (by omega) fun _ _ => rfl

/-- The largest value, in octal. -/
theorem convertInteger_right_largest :
    ∃ text, DigitText (digitsOf 111) 8 (2 ^ 64 - 1) text ∧ text.length ≤ sizeofOutput ∧
      ∀ destination, ∃ destination',
        convertInteger destination 0xFFFFFFFFFFFFFFFF 8 (digitsOf 111) =
          some (destination', text.length) ∧
        (∀ i (hi : i < text.length), destination' i = text[i]) ∧
        ∀ i, text.length ≤ i → destination' i = destination i :=
  convertInteger_right 0xFFFFFFFFFFFFFFFF 8 111 (Or.inl rfl)

end CometOS
