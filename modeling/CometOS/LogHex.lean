import CometOS.LogOutput

/-!
# The text of `print_hex` (`kernel/kernel/ui/log.c`)

`print_hex` shifts its value by four bits for each digit that is still to come.  A shift by 32 or more
has no meaning in C, where the machine's, and the model's, goes round: the loop is given once more
with such a shift as a failure, and it never fails.
-/

namespace CometOS

open LogBuffer Numeral Word32

/-- `value >> k`. -/
def shiftRight (value : UInt32) (k : ℕ) : Option UInt32 :=
  if k < 32 then some (value >>> UInt32.ofNat k) else none

/-- The third loop of `print_hex`, with its shifts checked. -/
def storeHexChecked (value : UInt32) : ℕ → LogBuffer → Option LogBuffer
  | 0, b => some b
  | i + 1, b =>
    (shiftRight value (i * 4)).bind fun shifted =>
      storeHexChecked value i (b.append (hexDigit (shifted &&& 0xF)))

/-- `print_hex`, with its shifts checked. -/
def printHexChecked (value width : UInt32) (b : LogBuffer) : Option LogBuffer := do
  let nWidth ← hexWidth value
  let b ← padHex nWidth (hexPad width) b
  storeHexChecked value nWidth.toNat b

/-- Eight digits take no shift by more than 28. -/
theorem storeHexChecked_eq (value : UInt32) (n : ℕ) (hn : n ≤ 8) (b : LogBuffer) :
    storeHexChecked value n b = some (storeHexDigits value n b) := by
  induction n generalizing b with
  | zero => rfl
  | succ n ih =>
    rw [storeHexChecked, shiftRight, if_pos (by omega), Option.bind_some, ih (by omega), storeHexDigits]

/-- All shifts have a meaning. -/
theorem printHexChecked_eq (value width : UInt32) (b : LogBuffer) :
    printHexChecked value width b = printHex value width b := by
  have hlen := hexNumeral_length_le value
  have hnat : (UInt32.ofNat (numeral lowerDigit 16 value.toNat).length).toNat =
      (numeral lowerDigit 16 value.toNat).length := toNat_ofNat_of_lt (by omega)
  have hstore : storeHexChecked value (numeral lowerDigit 16 value.toNat).length =
      fun b => some (storeHexDigits value (numeral lowerDigit 16 value.toNat).length b) := by
    funext b
    exact storeHexChecked_eq value _ hlen b
  simp only [printHexChecked, printHex, hexWidth_eq, Option.bind_eq_bind, Option.bind_some, hnat, hstore]

/-- The characters asked for: the width, or 8 if it is 0. -/
def hexCharacters (width : UInt32) : ℕ := if width = 0 then 8 else width.toNat

/-- The hexadecimal digits of `value`, with zeros in front up to the characters asked for. -/
def hexadecimalText (value width : UInt32) : List UInt8 :=
  List.replicate (hexCharacters width - (numeral lowerDigit 16 value.toNat).length) 48 ++
    numeral lowerDigit 16 value.toNat

theorem hexadecimalText_length (value width : UInt32) : (hexadecimalText value width).length =
    max (hexCharacters width) (numeral lowerDigit 16 value.toNat).length := by
  rw [hexadecimalText, List.length_append, List.length_replicate]
  omega

/-- As an `int`, a width below 2^31 is what it is. -/
theorem hexPad_eq {width : UInt32} (h : width.toNat < 2 ^ 31) : hexPad width = hexCharacters width := by
  have hint : width.toInt32.toInt = width.toNat := by
    rw [toInt_toInt32, if_pos h]
  have hzero : width.toInt32.toInt = 0 ↔ width = 0 := by
    rw [hint, Int.natCast_eq_zero, ← UInt32.toNat_inj]
    rfl
  rw [hexPad, hexCharacters]
  by_cases h0 : width = 0
  · rw [if_pos (hzero.2 h0), if_pos h0]
    rfl
  · rw [if_neg fun hc => h0 (hzero.1 hc), if_neg h0, hint]

/-- **`print_hex`.**  It stores as many characters as asked for, or as there are digits, if these are
more, and moves the cursor on by so many; no shift goes too far. -/
theorem printHex_right (value : UInt32) {width : UInt32} (hwidth : width.toNat < 2 ^ 31) (b : LogBuffer) :
    ∃ b', printHexChecked value width b = some b' ∧ printHex value width b = some b' ∧
      Appends b b' (hexadecimalText value width) ∧
      b'.ptr = b.ptr + UInt32.ofNat
        (max (hexCharacters width) (numeral lowerDigit 16 value.toNat).length) := by
  have htext : hexText value width = hexadecimalText value width := by
    rw [hexText, hexPad_eq hwidth, Int.toNat_natCast, hexadecimalText]
  have hchars : hexCharacters width ≤ 2 ^ 31 := by
    rw [hexCharacters]
    split
    · decide
    · exact hwidth.le
  have hlen := hexadecimalText_length value width
  have hdigits := hexNumeral_length_le value
  have hfits : (hexadecimalText value width).length ≤ 2 ^ 32 := by omega
  have happ := appendAll_appends b hfits
  have hrun : printHex value width b = some (b.appendAll (hexadecimalText value width)) := by
    rw [printHex_eq, htext]
  refine ⟨_, (printHexChecked_eq value width b).trans hrun, hrun, happ, ?_⟩
  rw [happ.ptr, hlen]

/-- The largest value takes the eight characters that are asked for when no width is given. -/
theorem printHex_right_largest : ∃ b', printHexChecked 0xFFFFFFFF 0 ⟨fun _ => 0, 0, []⟩ = some b' ∧
    printHex 0xFFFFFFFF 0 ⟨fun _ => 0, 0, []⟩ = some b' ∧
    Appends ⟨fun _ => 0, 0, []⟩ b' (hexadecimalText 0xFFFFFFFF 0) ∧
    b'.ptr = 0 + UInt32.ofNat
      (max (hexCharacters 0) (numeral lowerDigit 16 (0xFFFFFFFF : UInt32).toNat).length) :=
  printHex_right 0xFFFFFFFF (by decide) ⟨fun _ => 0, 0, []⟩

end CometOS
