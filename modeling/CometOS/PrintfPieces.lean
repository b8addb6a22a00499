import CometOS.PrintfOutput
import Mathlib.Data.List.TakeWhile

/-!
# The pieces of a format

What the scanner of `printf` takes off a format in one turn, for any format: text up to the next `%`, a
conversion with its length modifier, or a directive it does not understand.  Such a directive is printed
with the text behind it, and from then on no directive is understood any more.
-/

namespace CometOS

open ByteMemory CString Loop Numeral Word32

inductive Piece
  | text (chars : List UInt8)
  | conversion (length : Length) (char : UInt8)
  | reject (chars : List UInt8)
  deriving DecidableEq

def untilPercent (xs : List UInt8) : List UInt8 := xs.takeWhile (· ≠ 37)

/-- The last of the longest modifiers that `xs` begins with. -/
def modifierOf (xs : List UInt8) : Length × ℕ :=
  lengthModifiers.foldl (fun p modifier =>
    if modifier.1.length < p.2 then p
    else if modifier.1 <+: xs then (modifier.2, modifier.1.length)
    else p) (.default, 0)

/-- How many argument words a conversion takes, if it is understood. -/
def conversionWords (length : Length) (char : UInt8) : Option ℕ :=
  if char = 100 ∨ char = 105 then
    match length with
    | .longDouble | .sizeT => none
    | .longLong | .intmaxT => some 2
    | .shortShort | .short | .default | .long | .ptrdiffT => some 1
  else if char = 111 ∨ char = 117 ∨ char = 120 ∨ char = 88 ∨ char = 112 then
    match length with
    | .longDouble => none
    | .longLong | .intmaxT => some 2
    | .shortShort | .short | .default | .long | .sizeT | .ptrdiffT => some 1
  else if char = 99 ∨ char = 115 then some 1
  else none

/-- The first piece of `x :: xs`, and how many characters of `xs` belong to it. -/
def firstPiece (rejected : Bool) (x : UInt8) (xs : List UInt8) : Piece × ℕ :=
  if x ≠ 37 then (.text (x :: untilPercent xs), (untilPercent xs).length)
  else if xs.headD 0 = 37 then
    (.text (37 :: untilPercent xs.tail), (untilPercent xs.tail).length + 1)
  else if rejected then (.text (37 :: untilPercent xs), (untilPercent xs).length)
  else
    let m := modifierOf xs
    let char := (xs.drop m.2).headD 0
    if (conversionWords m.1 char).isSome then (.conversion m.1 char, m.2 + 1)
    else (.reject (37 :: untilPercent xs), (untilPercent xs).length)

def Piece.rejects : Piece → Bool
  | text _ | conversion _ _ => false
  | reject _ => true

/-- The pieces, once `skip` more characters of the last one have been passed over. -/
def piecesFrom : Bool → ℕ → List UInt8 → List Piece
  | _, _, [] => []
  | rejected, skip + 1, _ :: xs => piecesFrom rejected skip xs
  | rejected, 0, x :: xs =>
    let p := firstPiece rejected x xs
    p.1 :: piecesFrom (rejected || p.1.rejects) p.2 xs

def pieces (format : List UInt8) : List Piece := piecesFrom false 0 format

/-- The characters of the format that a piece prints. -/
def Piece.chars : Piece → List UInt8
  | text chars | reject chars => chars
  | conversion _ _ => []

/-- The argument words it takes. -/
def Piece.words : Piece → ℕ
  | text _ | reject _ => 0
  | conversion length char => (conversionWords length char).getD 0

/-- It prints nothing but its characters: it is no conversion, or one of the empty string. -/
def Piece.OnlyChars (mem : Mem) (parameters : List UInt32) : Piece → Prop
  | text _ | reject _ => True
  | conversion _ char => char = 115 ∧ mem (parameters.headD 0) = 0

theorem piecesFrom_skip (rejected : Bool) (skip : ℕ) (xs : List UInt8) :
    piecesFrom rejected skip xs = piecesFrom rejected 0 (xs.drop skip) := by
  induction xs generalizing skip with
  | nil => cases skip <;> rfl
  | cons x xs ih =>
    cases skip with
    | zero => rfl
    | succ skip => exact ih skip

section Scanner

variable {mem : Mem} {s : PrintfState} {x : UInt8} {xs : List UInt8}

/-! ### Length modifiers -/

theorem nameDiffers_iff (mem : Mem) (p : UInt32) (name : List UInt8) :
    nameDiffers mem p name = false ↔
      ∀ i, (hi : i < name.length) → mem (p + UInt32.ofNat i) = name[i] := by
  have hloop := @forUp_inv Bool
    (fun n different => different = false ↔
      ∀ i < n, mem (p + UInt32.ofNat i) = name.getD i 0)
    (fun n different => if mem (p + UInt32.ofNat n) ≠ name.getD n 0 then true else different)
    name.length 0 false (by simp) (fun n different _ _ h => by
      by_cases hn : mem (p + UInt32.ofNat n) = name.getD n 0
      · rw [if_neg (not_not.2 hn), h]
        constructor
        · intro hall i hi
          rcases Nat.lt_succ_iff_lt_or_eq.1 hi with hlt | rfl
          · exact hall i hlt
          · exact hn
        · exact fun hall i hi => hall i (by omega)
      · rw [if_pos hn]
        exact iff_of_false (by decide) fun hall => hn (hall n (by omega)))
  rw [Nat.zero_add] at hloop
  rw [nameDiffers, hloop]
  refine forall_congr' fun i => forall_congr' fun hi => ?_
  rw [List.getElem_eq_getD 0]

/-- **The length modifier** is read off the format alone. -/
theorem lengthModifier_eq_modifierOf {p : UInt32} (h : StringAt mem p xs) :
    lengthModifier mem p = modifierOf xs := by
  rw [lengthModifier, modifierOf]
  refine List.foldl_ext _ _ _ fun q modifier hmodifier => ?_
  have hname : (0 : UInt8) ∉ modifier.1 := by
    revert modifier
    decide
  have hiff := (nameDiffers_iff mem p modifier.1).trans (h.prefix_iff hname)
  by_cases hpre : modifier.1 <+: xs
  · rw [hiff.2 hpre, if_pos hpre, if_neg Bool.false_ne_true]
  · rw [if_pos ((Bool.eq_false_or_eq_true _).resolve_right fun hf => hpre (hiff.1 hf)), if_neg hpre]

theorem modifierOf_le (xs : List UInt8) : (modifierOf xs).2 ≤ xs.length := by
  rw [modifierOf]
  refine List.foldlRecOn (motive := fun p : Length × ℕ => p.2 ≤ xs.length) lengthModifiers _
    (Nat.zero_le _) fun p hp modifier _ => ?_
  split
  · exact hp
  · split
    · rename_i hpre
      exact hpre.length_le
    · exact hp

/-! ### Text -/

theorem headD_of_stringAt {p : UInt32} (h : StringAt mem p xs) : mem p = xs.headD 0 := by
  cases xs with
  | nil => exact h
  | cons x xs => exact h.1

/-- Behind the text up to the next `%` the format is at this or at its end. -/
theorem untilPercent_split (xs : List UInt8) :
    ∃ ys, untilPercent xs ++ ys = xs ∧ (∀ c ∈ untilPercent xs, c ≠ 37) ∧ ys.headD 37 = 37 := by
  refine ⟨xs.dropWhile (· ≠ 37), List.takeWhile_append_dropWhile, fun c hc => ?_, ?_⟩
  · have hpass : decide (c ≠ 37) = true := List.mem_takeWhile_imp (p := fun c => decide (c ≠ 37)) hc
    exact of_decide_eq_true hpass
  · cases hrest : xs.dropWhile (· ≠ 37) with
    | nil => rfl
    | cons y ys =>
      have hy := List.head_dropWhile_not (fun c : UInt8 => decide (c ≠ 37)) (l := xs) (by
        rw [hrest]
        exact List.cons_ne_nil y ys)
      simp only [hrest, List.head_cons, decide_eq_false_iff_not, not_not] at hy
      exact hy

theorem untilPercent_length_le (xs : List UInt8) : (untilPercent xs).length ≤ xs.length :=
  (List.takeWhile_sublist _).length_le

/-- **`print_c`** prints the character it is at, and those up to the next `%`. -/
theorem printC_untilPercent (h : StringAt mem s.format (x :: xs)) :
    printC mem s = some { s with
      out := s.out ++ x :: untilPercent xs
      format := s.format + UInt32.ofNat ((untilPercent xs).length + 1)
      written := s.written + UInt32.ofNat ((untilPercent xs).length + 1) } := by
  obtain ⟨ys, hsplit, hxs, hys⟩ := untilPercent_split xs
  rw [← hsplit] at h
  exact printC_eq h hxs hys

theorem incomprehensibleConversion_eq {begun : UInt32} (h : StringAt mem begun (x :: xs)) :
    incomprehensibleConversion mem begun s = some { s with
      out := s.out ++ x :: untilPercent xs
      format := begun + UInt32.ofNat ((untilPercent xs).length + 1)
      written := s.written + UInt32.ofNat ((untilPercent xs).length + 1)
      rejectedBadSpecifier := true } :=
  printC_untilPercent (s := { s with rejectedBadSpecifier := true, format := begun }) h

/-! ### Conversions -/

/-- `n` words are taken off the arguments. -/
def Takes {α : Type} (n : ℕ) (read : List UInt32 → Option (α × List UInt32)) : Prop :=
  ∀ parameters, (parameters.length < n → read parameters = none) ∧
    (n ≤ parameters.length → ∃ value, read parameters = some (value, parameters.drop n))

theorem Takes.map {α β : Type} {n : ℕ} {read : List UInt32 → Option (α × List UInt32)}
    (h : Takes n read) (f : α → β) :
    Takes n fun parameters => (read parameters).map fun p => (f p.1, p.2) := by
  intro parameters
  obtain ⟨hfew, henough⟩ := h parameters
  refine ⟨fun hlt => ?_, fun hle => ?_⟩
  · simp only [hfew hlt, Option.map_none]
  · obtain ⟨value, hvalue⟩ := henough hle
    exact ⟨f value, by simp only [hvalue, Option.map_some]⟩

theorem takes_vaArg32 : Takes 1 vaArg32 := by
  intro parameters
  cases parameters with
  | nil => exact ⟨fun _ => rfl, fun hle => absurd hle (by decide)⟩
  | cons w parameters => exact ⟨fun hlt => absurd hlt (by simp), fun _ => ⟨w, rfl⟩⟩

theorem takes_vaArg64 : Takes 2 vaArg64 := by
  intro parameters
  match parameters with
  | [] => exact ⟨fun _ => rfl, fun hle => absurd hle (by decide)⟩
  | [w] => exact ⟨fun _ => rfl, fun hle => absurd hle (by simp)⟩
  | lo :: hi :: parameters => exact ⟨fun hlt => absurd hlt (by simp), fun _ => ⟨_, rfl⟩⟩

theorem signedValue_words (length : Length) {char : UInt8} (hchar : char = 100 ∨ char = 105) :
    (conversionWords length char = none ∧ signedValue length = none) ∨
      ∃ n read, conversionWords length char = some n ∧ signedValue length = some read ∧
        Takes n read := by
  simp only [conversionWords, if_pos hchar]
  cases length with
  | longDouble | sizeT => exact Or.inl ⟨rfl, rfl⟩
  | shortShort | short | default | long | ptrdiffT =>
    exact Or.inr ⟨1, _, rfl, rfl, takes_vaArg32.map fun w => w.toInt32.toInt64⟩
  | longLong | intmaxT =>
    exact Or.inr ⟨2, _, rfl, rfl, takes_vaArg64.map UInt64.toInt64⟩

theorem unsignedValue_words (length : Length) {char : UInt8} (hsigned : ¬ (char = 100 ∨ char = 105))
    (hchar : char = 111 ∨ char = 117 ∨ char = 120 ∨ char = 88 ∨ char = 112) :
    (conversionWords length char = none ∧ unsignedValue length = none) ∨
      ∃ n read, conversionWords length char = some n ∧ unsignedValue length = some read ∧
        Takes n read := by
  simp only [conversionWords, if_neg hsigned, if_pos hchar]
  cases length with
  | longDouble => exact Or.inl ⟨rfl, rfl⟩
  | shortShort | short | default | long | sizeT =>
    exact Or.inr ⟨1, _, rfl, rfl, takes_vaArg32.map UInt32.toUInt64⟩
  | ptrdiffT =>
    exact Or.inr ⟨1, _, rfl, rfl, takes_vaArg32.map fun w => w.toInt32.toInt64.toUInt64⟩
  | longLong | intmaxT => exact Or.inr ⟨2, _, rfl, rfl, takes_vaArg64⟩

/-- An integer is at least one digit. -/
theorem printInteger_ne_nil (conversion : UInt8) (negativeValue : Bool) (value : UInt64)
    (output : ℕ → UInt8) (s : PrintfState) : ∃ printed, printed ≠ [] ∧
      printInteger conversion negativeValue value output s = some { s with out := s.out ++ printed } := by
  have hb : 2 ≤ (baseOf conversion).toNat := by
    have := baseOf_ge conversion
    omega
  refine ⟨_, fun hnil => ?_, printInteger_eq (fun k => (digitsOf conversion).getD k 0) hb fun _ _ => rfl⟩
  exact numeral_ne_nil _ hb (List.append_eq_nil_iff.1 hnil).2

/-- What a conversion does that takes `n` words: with fewer arguments nothing is returned, and else
something is printed, which is empty only for the empty string. -/
def Converts (mem : Mem) (char : UInt8) (n : ℕ) (s : PrintfState) (r : Option PrintfState) : Prop :=
  (s.parameters.length < n → r = none) ∧
    (n ≤ s.parameters.length → ∃ printed, r = some { s with
        format := s.format + 1, parameters := s.parameters.drop n, out := s.out ++ printed } ∧
      (printed = [] ↔ char = 115 ∧ mem (s.parameters.headD 0) = 0))

/-- The integer conversions. -/
theorem converts_integer {α : Type} {n : ℕ} {read : List UInt32 → Option (α × List UInt32)} {char : UInt8}
    (hread : Takes n read) (hchar : char ≠ 115) (negative : α → Bool) (value : α → UInt64) :
    Converts mem char n s ((read s.parameters).bind fun p =>
      printInteger char (negative p.1) (value p.1) (fun _ => 0)
        { s with format := s.format + 1, parameters := p.2 }) := by
  obtain ⟨hfew, henough⟩ := hread s.parameters
  refine ⟨fun hlt => by rw [hfew hlt]; rfl, fun hle => ?_⟩
  obtain ⟨v, hv⟩ := henough hle
  obtain ⟨printed, hne, hprint⟩ := printInteger_ne_nil char (negative v) (value v) (fun _ => 0)
    { s with format := s.format + 1, parameters := s.parameters.drop n }
  refine ⟨printed, ?_, iff_of_false hne fun h => hchar h.1⟩
  rw [hv, Option.bind_some, hprint]

/-- **The conversions.**  One that is understood takes its words and prints them. -/
theorem printfConversion_words {length : Length} {begun z : UInt32} (hz : mem z = 0) {n : ℕ}
    (h : conversionWords length (mem s.format) = some n) :
    Converts mem (mem s.format) n s (printfConversion mem length begun s) := by
  obtain ⟨char, hchar⟩ : ∃ char, char = mem s.format := ⟨_, rfl⟩
  rw [printfConversion]
  simp only [← hchar] at h ⊢
  by_cases hsigned : char = 100 ∨ char = 105
  · have hne : char ≠ 115 := by
      rcases hsigned with rfl | rfl
      · decide
      · decide
    rcases signedValue_words length hsigned with ⟨hnone, _⟩ | ⟨n', read, hsome, hread, htakes⟩
    · rw [h] at hnone
      cases hnone
    · obtain rfl := Option.some.inj (h.symm.trans hsome)
      rw [if_pos (by tauto), if_pos hsigned.symm, hread]
      exact converts_integer htakes hne (fun v : Int64 => v < 0)
        fun v => if v < 0 then -v.toUInt64 else v.toUInt64
  · by_cases hunsigned : char = 111 ∨ char = 117 ∨ char = 120 ∨ char = 88 ∨ char = 112
    · have hne : char ≠ 115 := by
        rintro rfl
        exact absurd hunsigned (by decide)
      rcases unsignedValue_words length hsigned hunsigned with
        ⟨hnone, _⟩ | ⟨n', read, hsome, hread, htakes⟩
      · rw [h] at hnone
        cases hnone
      · obtain rfl := Option.some.inj (h.symm.trans hsome)
        rw [if_pos (by tauto), if_neg fun h => hsigned h.symm, hread]
        exact converts_integer htakes hne (fun _ => false) id
    · simp only [conversionWords, if_neg hsigned, if_neg hunsigned] at h
      by_cases hone : char = 99 ∨ char = 115
      · rw [if_pos hone] at h
        obtain rfl := Option.some.inj h
        rw [if_neg (by tauto)]
        cases hparameters : s.parameters with
        | nil =>
          refine ⟨fun _ => ?_, fun hle => absurd hle (by rw [hparameters]; decide)⟩
          rcases hone with rfl | rfl
          · rfl
          · rfl
        | cons w parameters =>
          refine ⟨fun hlt => absurd hlt (by rw [hparameters]; simp), fun _ => ?_⟩
          rw [hparameters]
          rcases hone with rfl | rfl
          · exact ⟨[w.toUInt8], rfl,
              iff_of_false (List.cons_ne_nil _ _) fun h => absurd h.1 (by decide)⟩
          · obtain ⟨xs, hxs⟩ := exists_stringAt hz w
            rw [if_neg (by decide), if_pos rfl, vaArg32, Option.bind_some, strlen_eq hxs,
              Option.map_some, print_string hxs]
            refine ⟨xs, rfl, ?_⟩
            rw [List.headD_cons, headD_of_stringAt hxs]
            cases xs with
            | nil => simp
            | cons x xs => simp [hxs.2.1]
      · rw [if_neg hone] at h
        cases h

/-- A directive that takes no words is not understood. -/
theorem printfConversion_reject {length : Length} {begun : UInt32}
    (h : conversionWords length (mem s.format) = none) :
    ∃ q, printfConversion mem length begun s =
      incomprehensibleConversion mem begun { s with format := q } := by
  obtain ⟨char, hchar⟩ : ∃ char, char = mem s.format := ⟨_, rfl⟩
  rw [printfConversion]
  simp only [← hchar] at h ⊢
  by_cases hsigned : char = 100 ∨ char = 105
  · rcases signedValue_words length hsigned with ⟨_, hnone⟩ | ⟨n, read, hsome, _⟩
    · rw [if_pos (by tauto), if_pos hsigned.symm, hnone]
      exact ⟨_, rfl⟩
    · rw [h] at hsome
      cases hsome
  · by_cases hunsigned : char = 111 ∨ char = 117 ∨ char = 120 ∨ char = 88 ∨ char = 112
    · rcases unsignedValue_words length hsigned hunsigned with ⟨_, hnone⟩ | ⟨n, read, hsome, _⟩
      · rw [if_pos (by tauto), if_neg fun h => hsigned h.symm, hnone]
        exact ⟨_, rfl⟩
      · rw [h] at hsome
        cases hsome
    · simp only [conversionWords, if_neg hsigned, if_neg hunsigned] at h
      have hone : ¬ (char = 99 ∨ char = 115) := by
        intro hone
        rw [if_pos hone] at h
        cases h
      obtain ⟨h99, h115⟩ := not_or.1 hone
      rw [if_neg (by tauto), if_neg h99, if_neg h115]
      exact ⟨s.format, rfl⟩

/-- **One turn** of the scanner, over the piece that is next. -/
def pieceStep (mem : Mem) (s : PrintfState) (p : Piece × ℕ) : Option PrintfState :=
  match p.1 with
  | .text chars => some { s with
      out := s.out ++ chars
      format := s.format + UInt32.ofNat (p.2 + 1)
      written := s.written + UInt32.ofNat chars.length }
  | .reject chars => some { s with
      out := s.out ++ chars
      format := s.format + UInt32.ofNat (p.2 + 1)
      written := s.written + UInt32.ofNat chars.length
      rejectedBadSpecifier := true }
  | .conversion length _ =>
    printfConversion mem length s.format { s with format := s.format + UInt32.ofNat p.2 }

theorem printfBody_eq (h : StringAt mem s.format (x :: xs)) :
    printfBody mem s = pieceStep mem s (firstPiece s.rejectedBadSpecifier x xs) := by
  have hx : mem s.format = x := h.1
  have hrest : StringAt mem (s.format + 1) xs := h.2.2
  have hhead := headD_of_stringAt hrest
  rw [printfBody, firstPiece, hx]
  by_cases hpercent : x ≠ 37
  · rw [if_pos hpercent, if_pos hpercent, printC_untilPercent h]
    rfl
  · obtain rfl := not_not.1 hpercent
    rw [if_neg hpercent, if_neg hpercent]
    simp only [hhead]
    by_cases hescape : xs.headD 0 = 37
    · obtain ⟨ys, rfl⟩ : ∃ ys, xs = 37 :: ys := by
        cases xs with
        | nil => exact absurd hescape (by decide)
        | cons y ys => exact ⟨ys, by rw [show y = 37 from hescape]⟩
      rw [if_pos hescape, if_pos hescape, printC_untilPercent (s := { s with format := s.format + 1 }) hrest,
        add_one_ofNat]
      rfl
    · rw [if_neg hescape, if_neg hescape]
      by_cases hrejected : s.rejectedBadSpecifier = true
      · rw [if_pos hrejected, if_pos hrejected, incomprehensibleConversion_eq h, pieceStep]
        simp only [List.length_cons, hrejected]
      · rw [if_neg hrejected, if_neg hrejected, lengthModifier_eq_modifierOf hrest]
        -- the conversion character is the byte behind the modifier
        obtain ⟨⟨length, k⟩, hm⟩ : ∃ m, modifierOf xs = m := ⟨_, rfl⟩
        have hk := modifierOf_le xs
        have hat : StringAt mem (s.format + 1) (xs.take k ++ xs.drop k) := by
          rwa [List.take_append_drop]
        have hchar := headD_of_stringAt hat.append
        rw [hm] at hk
        rw [List.length_take, min_eq_left hk] at hchar
        simp only [hm]
        by_cases hwords : (conversionWords length ((xs.drop k).headD 0)).isSome = true
        · rw [if_pos hwords, pieceStep, add_one_ofNat]
        · rw [if_neg hwords]
          rw [← hchar, Option.not_isSome_iff_eq_none] at hwords
          obtain ⟨q, hq⟩ := @printfConversion_reject mem
            { s with format := s.format + 1 + UInt32.ofNat k } length s.format hwords
          rw [hq, incomprehensibleConversion_eq h]
          rfl

theorem firstPiece_le (rejected : Bool) (x : UInt8) (xs : List UInt8) :
    (firstPiece rejected x xs).2 ≤ xs.length := by
  rw [firstPiece]
  split
  · exact untilPercent_length_le xs
  · split
    · rename_i hhead
      cases xs with
      | nil => exact absurd hhead (by decide)
      | cons y ys => exact Nat.succ_le_succ (untilPercent_length_le ys)
    · split
      · exact untilPercent_length_le xs
      · obtain ⟨⟨length, k⟩, hm⟩ : ∃ m, modifierOf xs = m := ⟨_, rfl⟩
        have hk := modifierOf_le xs
        rw [hm] at hk
        simp only [hm]
        split
        · rename_i hwords
          rcases Nat.lt_or_eq_of_le hk with hlt | heq
          · exact hlt
          · have hnil : xs.drop k = [] := List.drop_eq_nil_of_le heq.ge
            rw [hnil] at hwords
            exact absurd hwords (by cases length <;> decide)
        · exact untilPercent_length_le xs

/-- What is left of the format behind its first piece. -/
theorem stringAt_drop {p : UInt32} {k : ℕ} (h : StringAt mem p (x :: xs)) (hk : k ≤ xs.length) :
    StringAt mem (p + UInt32.ofNat (k + 1)) (xs.drop k) := by
  have hsplit : StringAt mem p (x :: xs.take k ++ xs.drop k) := by
    rwa [List.cons_append, List.take_append_drop]
  have hat := hsplit.append
  rwa [List.length_cons, List.length_take, min_eq_left hk] at hat

theorem firstPiece_conversion {rejected : Bool} {length : Length} {char : UInt8} {k : ℕ}
    (h : firstPiece rejected x xs = (.conversion length char, k)) :
    (∃ n, conversionWords length char = some n) ∧ char = ((x :: xs).drop k).headD 0 := by
  rw [firstPiece] at h
  split at h
  · cases h
  · split at h
    · cases h
    · split at h
      · cases h
      · obtain ⟨⟨length', k'⟩, hm⟩ : ∃ m, modifierOf xs = m := ⟨_, rfl⟩
        simp only [hm] at h
        split at h
        · rename_i hwords
          obtain ⟨hpiece, rfl⟩ := Prod.mk.inj h
          obtain ⟨rfl, rfl⟩ := Piece.conversion.inj hpiece
          exact ⟨Option.isSome_iff_exists.1 hwords, rfl⟩
        · cases h

/-- **One turn** of the scanner: the words of the piece are taken, its characters are printed and
counted, and what is printed besides is not counted. -/
theorem printfBody_piece {piece : Piece} {k : ℕ} (h : StringAt mem s.format (x :: xs))
    (hp : firstPiece s.rejectedBadSpecifier x xs = (piece, k)) :
    (s.parameters.length < piece.words → printfBody mem s = none) ∧
    (piece.words ≤ s.parameters.length → ∃ printed, printfBody mem s = some
        { format := s.format + UInt32.ofNat (k + 1)
          parameters := s.parameters.drop piece.words
          written := s.written + UInt32.ofNat piece.chars.length
          rejectedBadSpecifier := s.rejectedBadSpecifier || piece.rejects
          out := s.out ++ (piece.chars ++ printed) } ∧
      (printed = [] ↔ piece.OnlyChars mem s.parameters)) := by
  rw [printfBody_eq h, hp]
  cases piece with
  | text chars =>
    refine ⟨fun hlt => absurd hlt (Nat.not_lt_zero _), fun _ => ⟨[], ?_, iff_of_true rfl trivial⟩⟩
    simp only [pieceStep, Piece.words, Piece.chars, Piece.rejects, Bool.or_false, List.drop_zero,
      List.append_nil]
  | reject chars =>
    refine ⟨fun hlt => absurd hlt (Nat.not_lt_zero _), fun _ => ⟨[], ?_, iff_of_true rfl trivial⟩⟩
    simp only [pieceStep, Piece.words, Piece.chars, Piece.rejects, Bool.or_true, List.drop_zero,
      List.append_nil]
  | conversion length char =>
    obtain ⟨⟨n, hn⟩, hchar⟩ := firstPiece_conversion hp
    have hk := firstPiece_le s.rejectedBadSpecifier x xs
    rw [hp] at hk
    have hat : StringAt mem s.format ((x :: xs).take k ++ (x :: xs).drop k) := by
      rwa [List.take_append_drop]
    have hmem := headD_of_stringAt hat.append
    rw [List.length_take, List.length_cons, min_eq_left (Nat.le_succ_of_le hk), ← hchar] at hmem
    have hwords : (Piece.conversion length char).words = n := by
      rw [Piece.words, hn, Option.getD_some]
    obtain ⟨z, hz⟩ : ∃ z, mem z = 0 := ⟨_, h.terminator⟩
    have hconverts := @printfConversion_words mem { s with format := s.format + UInt32.ofNat k } length
      s.format z hz n (by rw [hmem]; exact hn)
    rw [hmem] at hconverts
    obtain ⟨hfew, henough⟩ := hconverts
    rw [hwords]
    refine ⟨hfew, fun hle => ?_⟩
    obtain ⟨printed, hresult, honly⟩ := henough hle
    refine ⟨printed, ?_, honly⟩
    simp only [pieceStep, hresult, Piece.chars, Piece.rejects, Bool.or_false, List.nil_append, List.length_nil,
      show UInt32.ofNat 0 = 0 from rfl, UInt32.add_zero, ofNat_succ, UInt32.add_assoc]

/-! ### The whole format -/

theorem piecesFrom_cons (rejected : Bool) (x : UInt8) {piece : Piece} {k : ℕ}
    (hp : firstPiece rejected x xs = (piece, k)) :
    piecesFrom rejected 0 (x :: xs) =
      piece :: piecesFrom (rejected || piece.rejects) 0 (xs.drop k) := by
  rw [← piecesFrom_skip, piecesFrom, hp]

/-- The argument words that a format takes. -/
def wordsLength (ps : List Piece) : ℕ := (ps.map Piece.words).sum

theorem wordsLength_cons (p : Piece) (ps : List Piece) :
    wordsLength (p :: ps) = p.words + wordsLength ps := by
  rw [wordsLength, List.map_cons, List.sum_cons, wordsLength]

theorem printf_loop_returns : ∀ (fuel : ℕ) (xs : List UInt8) (s : PrintfState), xs.length < fuel →
    StringAt mem s.format xs →
    wordsLength (piecesFrom s.rejectedBadSpecifier 0 xs) ≤ s.parameters.length →
    ∃ r, whileLoop (fun s : PrintfState => mem s.format ≠ 0) (printfBody mem) fuel s = some r := by
  intro fuel
  induction fuel with
  | zero => intro xs s hlt; omega
  | succ fuel ih =>
    intro xs s hlt h hwords
    rw [whileLoop_succ]
    cases xs with
    | nil =>
      have hend : mem s.format = 0 := h
      exact ⟨s, if_neg (by simp [hend])⟩
    | cons x xs =>
      have hne : mem s.format ≠ 0 := by
        rw [h.1]
        exact h.2.1
      obtain ⟨⟨piece, k⟩, hp⟩ : ∃ p, firstPiece s.rejectedBadSpecifier x xs = p := ⟨_, rfl⟩
      have hk := firstPiece_le s.rejectedBadSpecifier x xs
      rw [hp] at hk
      rw [piecesFrom_cons _ _ hp, wordsLength_cons] at hwords
      rw [List.length_cons] at hlt
      obtain ⟨printed, hbody, _⟩ := (printfBody_piece h hp).2 (by omega)
      rw [if_pos (decide_eq_true hne), hbody, Option.bind_some]
      refine ih (xs.drop k) _ (by rw [List.length_drop]; omega) (stringAt_drop h hk) ?_
      show wordsLength (piecesFrom (s.rejectedBadSpecifier || piece.rejects) 0 (xs.drop k)) ≤
        (s.parameters.drop piece.words).length
      rw [List.length_drop]
      omega

/-- **`printf` returns** if there are as many arguments as the format takes. -/
theorem printf_returns {format : UInt32} {parameters : List UInt32} (h : StringAt mem format xs)
    (hwords : wordsLength (pieces xs) ≤ parameters.length) :
    ∃ r, printf mem format parameters = some r :=
  printf_loop_returns (2 ^ 32) xs _ h.length_lt h hwords

end Scanner

end CometOS
