import CometOS.Lib.Reader
import CometOS.PrintfPieces

/-!
# What `printf` reads of the format

The scanner once more, with each byte that it reads of the format on record.  What a conversion does
reads nothing of the format, so it is taken over as it is.
-/

namespace CometOS

open ByteMemory CString Loop Reader Reader.Prog Word32

/-- `different`, for the characters of a name from the `n`-th on. -/
def readNameDiffers (format : UInt32) : ℕ → List UInt8 → Prog Bool
  | _, [] => pure false
  | n, c :: name => do
    let x ← load8 (format + UInt32.ofNat n)
    let different ← readNameDiffers format (n + 1) name
    pure (decide (x ≠ c) || different)

def readLengthModifier (format : UInt32) : Prog (Length × ℕ) :=
  lengthModifiers.foldlM (fun p modifier =>
    if modifier.1.length < p.2 then pure p
    else do
      let different ← readNameDiffers format 0 modifier.1
      pure (if different then p else (modifier.2, modifier.1.length))) (.default, 0)

/-- A test of the loop that counts `amount` up. -/
def readAmountStep (format amount : UInt32) : Prog (UInt32 ⊕ UInt32) := do
  let c ← load8 (format + amount)
  pure (if c ≠ 0 ∧ c ≠ 37 then .inl (amount + 1) else .inr amount)

/-- `print`, of `n` bytes of the format from the `i`-th on. -/
def readPrint (format : UInt32) : ℕ → ℕ → List UInt8 → Prog (List UInt8)
  | _, 0, out => pure out
  | i, n + 1, out => do
    let c ← load8 (format + UInt32.ofNat i)
    readPrint format (i + 1) n (out ++ [c])

def readPrintC (s : PrintfState) : Prog PrintfState := do
  let amount ← loop (readAmountStep s.format) (2 ^ 32) 1
  let out ← readPrint s.format 0 amount.toNat s.out
  pure { s with out, format := s.format + amount, written := s.written + amount }

def readIncomprehensibleConversion (formatBegunAt : UInt32) (s : PrintfState) : Prog PrintfState :=
  readPrintC { s with rejectedBadSpecifier := true, format := formatBegunAt }

/-- The conversion is none of those that are `goto incomprehensible_conversion`. -/
def understood (length : Length) (conversion : UInt8) : Bool :=
  if conversion = 100 ∨ conversion = 105 ∨ conversion = 111 ∨ conversion = 117 ∨
      conversion = 120 ∨ conversion = 88 ∨ conversion = 112 then
    if conversion = 105 ∨ conversion = 100 then (signedValue length).isSome
    else (unsignedValue length).isSome
  else decide (conversion = 99 ∨ conversion = 115)

def readPrintfConversion (length : Length) (formatBegunAt : UInt32) (s : PrintfState) :
    Prog PrintfState := do
  let conversion ← load8 s.format
  if understood length conversion then
    peek fun mem => printfConversion mem length formatBegunAt s
  else readIncomprehensibleConversion formatBegunAt s

def readPrintfBody (s : PrintfState) : Prog PrintfState := do
  let c ← load8 s.format
  if c ≠ 37 then readPrintC s
  else
    let formatBegunAt := s.format
    let s := { s with format := s.format + 1 }
    let c ← load8 s.format
    if c = 37 then readPrintC s
    else if s.rejectedBadSpecifier then readIncomprehensibleConversion formatBegunAt s
    else
      let r ← readLengthModifier s.format
      readPrintfConversion r.1 formatBegunAt { s with format := s.format + UInt32.ofNat r.2 }

def readPrintfStep (s : PrintfState) : Prog (PrintfState ⊕ PrintfState) := do
  let c ← load8 s.format
  if c = 0 then pure (.inr s)
  else
    let s ← readPrintfBody s
    pure (.inl s)

def readPrintf (fuel : ℕ) (format : UInt32) (parameters : List UInt32) : Prog PrintfState :=
  loop readPrintfStep fuel { format, parameters, written := 0, rejectedBadSpecifier := false, out := [] }

section Reads

variable {mem : Mem} {P : UInt32 → Prop} {s : PrintfState} {x : UInt8} {xs : List UInt8}

/-! ### It is `printf` -/

theorem readNameDiffers_val (p : UInt32) (n : ℕ) (name : List UInt8) :
    ∃ different, (readNameDiffers p n name mem).1 = some different ∧
      (different = false ↔ ∀ i, (hi : i < name.length) → mem (p + UInt32.ofNat (n + i)) = name[i]) := by
  induction name generalizing n with
  | nil => exact ⟨false, rfl, iff_of_true rfl fun i hi => absurd hi (Nat.not_lt_zero i)⟩
  | cons c name ih =>
    obtain ⟨different, hval, hiff⟩ := ih (n + 1)
    refine ⟨decide (mem (p + UInt32.ofNat n) ≠ c) || different, ?_, ?_⟩
    · rw [readNameDiffers, bind_val]
      show ((readNameDiffers p (n + 1) name >>= _) mem).1 = _
      rw [bind_val, hval]
      rfl
    · rw [Bool.or_eq_false_iff, decide_eq_false_iff_not, not_not, hiff]
      constructor
      · rintro ⟨hc, hall⟩ i hi
        cases i with
        | zero => exact hc
        | succ i =>
          rw [← Nat.succ_add_eq_add_succ]
          exact hall i (Nat.lt_of_succ_lt_succ hi)
      · intro hall
        refine ⟨hall 0 (Nat.zero_lt_succ _), fun i hi => ?_⟩
        rw [Nat.add_right_comm]
        exact hall (i + 1) (Nat.succ_lt_succ hi)

theorem readNameDiffers_eq (p : UInt32) (name : List UInt8) :
    (readNameDiffers p 0 name mem).1 = some (nameDiffers mem p name) := by
  obtain ⟨different, hval, hiff⟩ := @readNameDiffers_val mem p 0 name
  simp only [Nat.zero_add] at hiff
  rw [hval, Option.some.injEq, Bool.eq_iff_iff, ← not_iff_not, Bool.not_eq_true, Bool.not_eq_true,
    hiff, nameDiffers_iff]

theorem readLengthModifier_eq (p : UInt32) :
    (readLengthModifier p mem).1 = some (lengthModifier mem p) := by
  rw [readLengthModifier, lengthModifier]
  generalize lengthModifiers = ms
  generalize ((Length.default, 0) : Length × ℕ) = q
  induction ms generalizing q with
  | nil => rfl
  | cons modifier ms ih =>
    rw [List.foldlM_cons, List.foldl_cons, bind_val]
    by_cases hlt : modifier.1.length < q.2
    · rw [if_pos hlt, if_pos hlt]
      exact ih q
    · rw [if_neg hlt, if_neg hlt, bind_val, readNameDiffers_eq]
      exact ih _

theorem readAmount_eq (format : UInt32) : (loop (readAmountStep format) (2 ^ 32) 1 mem).1 =
    whileLoop (fun amount => mem (format + amount) ≠ 0 ∧ mem (format + amount) ≠ 37)
      (fun amount => some (amount + 1)) (2 ^ 32) 1 := by
  have hturn : Reader.Turn (readAmountStep format) mem
      (fun amount => ¬ (mem (format + amount) ≠ 0 ∧ mem (format + amount) ≠ 37))
      (fun amount => amount + 1) some := by
    constructor
    · intro amount hend
      show some (if mem (format + amount) ≠ 0 ∧ mem (format + amount) ≠ 37 then _ else _) = _
      rw [if_neg hend]
      rfl
    · intro amount hgo
      show some (if mem (format + amount) ≠ 0 ∧ mem (format + amount) ≠ 37 then _ else _) = _
      rw [if_pos (not_not.1 hgo)]
  rw [hturn.val_eq, Option.bind_fun_some]
  simp only [not_not]

theorem readPrint_eq (format : UInt32) (n i : ℕ) (out : List UInt8) :
    (readPrint format i n out mem).1 =
      some (forUp (fun i out => out ++ [mem (format + UInt32.ofNat i)]) i n out) := by
  induction n generalizing i out with
  | zero => rfl
  | succ n ih =>
    rw [readPrint, bind_val]
    exact ih (i + 1) _

theorem readPrintC_eq (s : PrintfState) : (readPrintC s mem).1 = printC mem s := by
  rw [readPrintC, bind_val, readAmount_eq, printC]
  cases whileLoop (fun amount => decide (mem (s.format + amount) ≠ 0 ∧ mem (s.format + amount) ≠ 37))
      (fun amount => some (amount + 1)) (2 ^ 32) 1 with
  | none => rfl
  | some amount =>
    rw [Option.bind_some, bind_val, readPrint_eq]
    rfl

theorem understood_eq (length : Length) (char : UInt8) :
    understood length char = (conversionWords length char).isSome := by
  by_cases hsigned : char = 100 ∨ char = 105
  · rw [understood, if_pos (by tauto), if_pos hsigned.symm]
    rcases signedValue_words length hsigned with ⟨hnone, hvalue⟩ | ⟨n, read, hsome, hvalue, _⟩
    · rw [hnone, hvalue]
      rfl
    · rw [hsome, hvalue]
      rfl
  · by_cases hunsigned : char = 111 ∨ char = 117 ∨ char = 120 ∨ char = 88 ∨ char = 112
    · rw [understood, if_pos (by tauto), if_neg fun h => hsigned h.symm]
      rcases unsignedValue_words length hsigned hunsigned with
        ⟨hnone, hvalue⟩ | ⟨n, read, hsome, hvalue, _⟩
      · rw [hnone, hvalue]
        rfl
      · rw [hsome, hvalue]
        rfl
    · rw [understood, if_neg (by tauto)]
      simp only [conversionWords, if_neg hsigned, if_neg hunsigned]
      by_cases hone : char = 99 ∨ char = 115
      · rw [if_pos hone, decide_eq_true hone]
        rfl
      · rw [if_neg hone, decide_eq_false hone]
        rfl

theorem readPrintfConversion_eq (length : Length) (begun : UInt32) (s : PrintfState) :
    (readPrintfConversion length begun s mem).1 = printfConversion mem length begun s := by
  rw [readPrintfConversion, bind_val, load8_val, Option.bind_some, ite_val, understood_eq]
  by_cases hwords : (conversionWords length (mem s.format)).isSome = true
  · rw [if_pos hwords]
    rfl
  · rw [if_neg hwords]
    have hreject : conversionWords length (mem s.format) = none := Option.not_isSome_iff_eq_none.1 hwords
    obtain ⟨q, hq⟩ : ∃ q, printfConversion mem length begun s =
        incomprehensibleConversion mem begun { s with format := q } := printfConversion_reject hreject
    rw [hq]
    exact readPrintC_eq _

theorem readPrintfBody_eq (s : PrintfState) : (readPrintfBody s mem).1 = printfBody mem s := by
  rw [readPrintfBody, printfBody, bind_val, load8_val, Option.bind_some, ite_val]
  by_cases hpercent : mem s.format ≠ 37
  · rw [if_pos hpercent, if_pos hpercent]
    exact readPrintC_eq s
  · rw [if_neg hpercent, if_neg hpercent, bind_val, load8_val, Option.bind_some, ite_val]
    simp only
    by_cases hescape : mem (s.format + 1) = 37
    · rw [if_pos hescape, if_pos hescape]
      exact readPrintC_eq _
    · rw [if_neg hescape, if_neg hescape]
      by_cases hrejected : s.rejectedBadSpecifier = true
      · rw [if_pos hrejected, if_pos hrejected]
        exact readPrintC_eq _
      · rw [if_neg hrejected, if_neg hrejected, bind_val, readLengthModifier_eq, Option.bind_some]
        exact readPrintfConversion_eq _ _ _

/-- **The two scanners return the same.** -/
theorem readPrintf_eq (fuel : ℕ) (s : PrintfState) : (loop readPrintfStep fuel s mem).1 =
    whileLoop (fun s : PrintfState => mem s.format ≠ 0) (printfBody mem) fuel s := by
  induction fuel generalizing s with
  | zero => rfl
  | succ fuel ih =>
    rw [loop_succ, whileLoop_succ, bind_val, readPrintfStep, bind_val, load8_val, Option.bind_some,
      ite_val]
    by_cases hend : mem s.format = 0
    · rw [if_pos hend, if_neg (by simp [hend])]
      rfl
    · rw [if_neg hend, if_pos (decide_eq_true hend), bind_val, readPrintfBody_eq]
      cases printfBody mem s with
      | none => rfl
      | some t => exact ih t

/-! ### What is read -/

theorem within_load8_then {α : Type} {k : UInt8 → Prog α} (a : UInt32) :
    Within P (load8 a >>= k) mem ↔ P a ∧ Within P (k (mem a)) mem := by
  rw [within_load8_bind, covered_one]

/-- The first of a run of addresses. -/
theorem holds_first {p : UInt32} {n : ℕ} (hP : ∀ i ≤ n, P (p + UInt32.ofNat i)) : P p := by
  have h0 := hP 0 (Nat.zero_le n)
  rwa [show UInt32.ofNat 0 = 0 from rfl, UInt32.add_zero] at h0

/-- A run of addresses is its first and those after it. -/
theorem holds_run_succ (p : UInt32) (m n : ℕ) : (∀ i < n + 1, P (p + UInt32.ofNat (m + i))) ↔
    P (p + UInt32.ofNat m) ∧ ∀ i < n, P (p + UInt32.ofNat (m + 1 + i)) := by
  rw [Nat.forall_lt_succ_left, Nat.add_zero]
  refine and_congr_right fun _ => forall₂_congr fun i _ => ?_
  rw [Nat.succ_add_eq_add_succ]

theorem within_readNameDiffers (p : UInt32) (n : ℕ) (name : List UInt8) :
    Within P (readNameDiffers p n name) mem ↔ ∀ i < name.length, P (p + UInt32.ofNat (n + i)) := by
  induction name generalizing n with
  | nil => exact iff_of_true (within_pure false) fun i hi => absurd hi (Nat.not_lt_zero i)
  | cons c name ih =>
    rw [readNameDiffers, within_load8_then, within_map, ih, List.length_cons, holds_run_succ]

/-- **The length modifiers**: two characters are read, even if the first is the end of the format. -/
theorem within_readLengthModifier (p : UInt32) :
    Within P (readLengthModifier p) mem ↔ P p ∧ P (p + 1) := by
  have hzero : p + UInt32.ofNat 0 = p := by rw [show UInt32.ofNat 0 = 0 from rfl, UInt32.add_zero]
  constructor
  · intro h
    -- the first name has two characters
    have hfirst : Within P (readNameDiffers p 0 [104, 104]) mem := (within_map _).1 (within_bind.1 h).1
    rw [within_readNameDiffers] at hfirst
    have h0 := hfirst 0 (by decide)
    rw [Nat.zero_add, hzero] at h0
    exact ⟨h0, hfirst 1 (by decide)⟩
  · rintro ⟨h0, h1⟩
    refine within_foldlM _ (fun modifier hmodifier q => ?_) _
    have hlength : modifier.1.length ≤ 2 := by
      revert modifier
      decide
    rw [within_ite, within_map, within_readNameDiffers]
    refine ⟨fun _ => within_pure q, fun _ i hi => ?_⟩
    rw [Nat.zero_add]
    rcases (by omega : i = 0 ∨ i = 1) with rfl | rfl
    · rwa [hzero]
    · exact h1

/-- **`print_c`** reads up to the next `%` or the end. -/
theorem within_readAmount (p : UInt32) (fuel i : ℕ) (h : StringAt mem (p + UInt32.ofNat i) xs)
    (hP : ∀ j ≤ xs.length, P (p + UInt32.ofNat (i + j))) :
    Within P (loop (readAmountStep p) fuel (UInt32.ofNat i)) mem := by
  induction fuel generalizing i xs with
  | zero => exact within_trap
  | succ fuel ih =>
    rw [loop_succ, within_bind_of (a := if mem (p + UInt32.ofNat i) ≠ 0 ∧ mem (p + UInt32.ofNat i) ≠ 37
      then .inl (UInt32.ofNat i + 1) else .inr (UInt32.ofNat i)) rfl]
    have hhere := hP 0 (Nat.zero_le _)
    refine ⟨(within_map _).2 ((within_load8 _).2 (covered_one.2 hhere)), ?_⟩
    by_cases hgo : mem (p + UInt32.ofNat i) ≠ 0 ∧ mem (p + UInt32.ofNat i) ≠ 37
    · rw [if_pos hgo]
      cases xs with
      | nil => exact absurd h hgo.1
      | cons x xs =>
        have hnext : StringAt mem (p + UInt32.ofNat (i + 1)) xs := by
          rw [ofNat_succ, ← UInt32.add_assoc]
          exact h.2.2
        have hrest := ih (i + 1) hnext fun j hj => by
          rw [Nat.succ_add_eq_add_succ]
          exact hP (j + 1) (Nat.succ_le_succ hj)
        rw [ofNat_succ] at hrest
        exact hrest
    · rw [if_neg hgo]
      exact within_pure _

theorem within_readPrint (p : UInt32) (n i : ℕ) (out : List UInt8) :
    Within P (readPrint p i n out) mem ↔ ∀ j < n, P (p + UInt32.ofNat (i + j)) := by
  induction n generalizing i out with
  | zero => exact iff_of_true (within_pure out) fun j hj => absurd hj (Nat.not_lt_zero j)
  | succ n ih =>
    rw [readPrint, within_load8_then, ih, holds_run_succ]

theorem within_readPrintC (h : StringAt mem s.format (x :: xs))
    (hP : ∀ i ≤ (x :: xs).length, P (s.format + UInt32.ofNat i)) : Within P (readPrintC s) mem := by
  have hsecond : StringAt mem (s.format + UInt32.ofNat 1) xs := h.2.2
  have hamount := within_readAmount s.format (2 ^ 32) 1 hsecond fun j hj => hP (1 + j) (by
    rw [List.length_cons]
    omega)
  rw [readPrintC, within_bind]
  refine ⟨hamount, fun amount hval => (within_map _).2 ?_⟩
  -- as many characters are printed as have been passed
  rw [within_readPrint]
  intro j hj
  rw [Nat.zero_add]
  refine hP j ?_
  obtain ⟨ys, hsplit, hxs, hys⟩ := untilPercent_split xs
  have hlt := h.length_lt
  have hle := untilPercent_length_le xs
  rw [← hsplit] at h
  have hscan := printC_amount h hxs hys
  rw [readAmount_eq, hscan] at hval
  obtain rfl := Option.some.inj hval
  rw [List.length_cons] at hlt ⊢
  rw [toNat_ofNat_of_lt (by omega)] at hj
  omega

/-- A directive that is only a `%` is one at the end. -/
theorem firstPiece_lone_iff (rejected : Bool) (x : UInt8) (xs : List UInt8) :
    (firstPiece rejected x xs).1 = .reject [37] ↔ rejected = false ∧ x = 37 ∧ xs = [] := by
  constructor
  · intro h
    rw [firstPiece] at h
    split at h
    · cases h
    · rename_i hx
      split at h
      · cases h
      · rename_i hhead
        split at h
        · cases h
        · rename_i hrejected
          refine ⟨by simpa using hrejected, not_not.1 hx, ?_⟩
          obtain ⟨⟨length, k⟩, hm⟩ : ∃ m, modifierOf xs = m := ⟨_, rfl⟩
          simp only [hm] at h
          split at h
          · cases h
          · obtain ⟨_, hnil⟩ := List.cons.inj (Piece.reject.inj h)
            obtain ⟨ys, hsplit, _, hys⟩ := untilPercent_split xs
            rw [hnil, List.nil_append] at hsplit
            rw [← hsplit]
            cases ys with
            | nil => rfl
            | cons y ys =>
              rw [← hsplit] at hhead
              exact absurd hys hhead
  · rintro ⟨rfl, rfl, rfl⟩
    rfl

/-- **One turn** reads what is left of the format, and a byte behind it only for a `%` at the end. -/
theorem within_readPrintfBody (h : StringAt mem s.format (x :: xs))
    (hP : ∀ i ≤ (x :: xs).length, P (s.format + UInt32.ofNat i)) :
    Within P (readPrintfBody s) mem ↔
      ((firstPiece s.rejectedBadSpecifier x xs).1 = .reject [37] →
        P (s.format + UInt32.ofNat (xs.length + 2))) := by
  have hzero : P s.format := holds_first hP
  have hone : P (s.format + 1) := hP 1 (Nat.succ_le_succ (Nat.zero_le _))
  have htext := within_readPrintC h hP
  rw [firstPiece_lone_iff, readPrintfBody, within_load8_then, h.1, and_iff_right hzero]
  by_cases hx : x ≠ 37
  · rw [if_pos hx]
    exact iff_of_true htext fun hlone => absurd hlone.2.1 hx
  · obtain rfl := not_not.1 hx
    rw [if_neg hx]
    simp only
    rw [within_load8_then, headD_of_stringAt h.2.2, and_iff_right hone]
    by_cases hescape : xs.headD 0 = 37
    · rw [if_pos hescape]
      cases xs with
      | nil => exact absurd hescape (by decide)
      | cons y ys =>
        refine iff_of_true (within_readPrintC h.2.2 fun i hi => ?_) fun hlone =>
          absurd hlone.2.2 (List.cons_ne_nil y ys)
        rw [add_one_ofNat]
        exact hP (i + 1) (Nat.succ_le_succ hi)
    · rw [if_neg hescape]
      by_cases hrejected : s.rejectedBadSpecifier = true
      · rw [if_pos hrejected]
        refine iff_of_true (within_readPrintC h hP) fun hlone => ?_
        rw [hlone.1] at hrejected
        cases hrejected
      · rw [if_neg hrejected, within_bind_of (readLengthModifier_eq _), within_readLengthModifier,
          and_iff_right hone, lengthModifier_eq_modifierOf h.2.2]
        have hk := modifierOf_le xs
        have hrest : Within P (readPrintfConversion (modifierOf xs).1 s.format
            { s with format := s.format + 1 + UInt32.ofNat (modifierOf xs).2 }) mem := by
          rw [readPrintfConversion, within_load8_then, within_ite]
          refine ⟨?_, fun _ => within_peek _, fun _ => ?_⟩
          · rw [add_one_ofNat]
            exact hP _ (Nat.succ_le_succ hk)
          · exact within_readPrintC h hP
        have htwo : s.format + 1 + 1 = s.format + UInt32.ofNat 2 := add_one_ofNat s.format 1
        rw [and_iff_left hrest, htwo]
        cases xs with
        | nil =>
          have hfalse : s.rejectedBadSpecifier = false := by simpa using hrejected
          simp only [hfalse, true_and, true_implies, List.length_nil]
        | cons y ys =>
          refine iff_of_true (hP 2 ?_) fun hlone => absurd hlone.2.2 (List.cons_ne_nil y ys)
          exact Nat.succ_le_succ (Nat.succ_le_succ (Nat.zero_le _))

/-! ### The whole format -/

theorem within_loop_nil (h : StringAt mem s.format []) (hP : P s.format) (fuel : ℕ) :
    Within P (loop readPrintfStep fuel s) mem := by
  cases fuel with
  | zero => exact within_trap
  | succ fuel =>
    have hend : mem s.format = 0 := h
    rw [loop_succ, within_bind]
    constructor
    · rw [readPrintfStep, within_load8_then, hend, if_pos rfl]
      exact ⟨hP, within_pure _⟩
    · intro r hr
      rw [readPrintfStep, bind_val, load8_val, Option.bind_some, hend, if_pos rfl] at hr
      obtain rfl := Option.some.inj hr
      exact within_pure s

theorem within_loop_cons (h : StringAt mem s.format (x :: xs)) (hP : P s.format) (fuel : ℕ) :
    Within P (loop readPrintfStep (fuel + 1) s) mem ↔ Within P (readPrintfBody s) mem ∧
      ∀ t, printfBody mem s = some t → Within P (loop readPrintfStep fuel t) mem := by
  have hne : mem s.format ≠ 0 := by
    rw [h.1]
    exact h.2.1
  have hval : (readPrintfStep s mem).1 = (printfBody mem s).map Sum.inl := by
    rw [readPrintfStep, bind_val, load8_val, Option.bind_some, ite_val, if_neg hne, bind_val,
      readPrintfBody_eq]
    cases printfBody mem s with
    | none => rfl
    | some t => rfl
  rw [loop_succ, within_bind, hval, readPrintfStep, within_load8_then, if_neg hne, within_map,
    and_iff_right hP]
  refine and_congr_right fun _ => ⟨fun hall t ht => ?_, fun hall r hr => ?_⟩
  · exact hall (.inl t) (by rw [ht]; rfl)
  · obtain ⟨t, ht, rfl⟩ := Option.map_eq_some_iff.1 hr
    exact hall t ht

/-- The addresses behind a piece are those of the format. -/
theorem add_ofNat_drop (p : UInt32) {k i : ℕ} (hk : k ≤ xs.length) :
    p + UInt32.ofNat (k + 1) + UInt32.ofNat i = p + UInt32.ofNat (k + 1 + i) ∧
      (i ≤ (xs.drop k).length → k + 1 + i ≤ (x :: xs).length) ∧
      k + 1 + ((xs.drop k).length + 1) = xs.length + 2 := by
  rw [UInt32.ofNat_add (k + 1) i, ← UInt32.add_assoc, List.length_drop, List.length_cons]
  refine ⟨rfl, ?_, ?_⟩
  · omega
  · omega

theorem within_loop : ∀ (fuel : ℕ) (xs : List UInt8) (s : PrintfState), StringAt mem s.format xs →
    (∀ i ≤ xs.length, P (s.format + UInt32.ofNat i)) →
    (.reject [37] ∈ piecesFrom s.rejectedBadSpecifier 0 xs →
      P (s.format + UInt32.ofNat (xs.length + 1))) →
    Within P (loop readPrintfStep fuel s) mem := by
  intro fuel
  induction fuel with
  | zero => exact fun _ _ _ _ _ => within_trap
  | succ fuel ih =>
    intro xs s h hP hlone
    have hzero : P s.format := holds_first hP
    cases xs with
    | nil => exact within_loop_nil h hzero _
    | cons x xs =>
      obtain ⟨⟨piece, k⟩, hp⟩ : ∃ p, firstPiece s.rejectedBadSpecifier x xs = p := ⟨_, rfl⟩
      have hk := firstPiece_le s.rejectedBadSpecifier x xs
      rw [hp] at hk
      rw [piecesFrom_cons _ _ hp, List.mem_cons] at hlone
      rw [within_loop_cons h hzero, within_readPrintfBody h hP, hp]
      refine ⟨fun hfirst => hlone (Or.inl hfirst.symm), fun t ht => ?_⟩
      obtain ⟨hfew, henough⟩ := printfBody_piece h hp
      by_cases hwords : piece.words ≤ s.parameters.length
      · obtain ⟨printed, hbody, _⟩ := henough hwords
        rw [hbody] at ht
        obtain rfl := Option.some.inj ht
        refine ih (xs.drop k) _ (stringAt_drop h hk) (fun i hi => ?_) fun hmem => ?_
        · obtain ⟨hadd, hle, _⟩ := @add_ofNat_drop x xs s.format k i hk
          rw [hadd]
          exact hP _ (hle hi)
        · obtain ⟨hadd, _, hend⟩ := @add_ofNat_drop x xs s.format k ((xs.drop k).length + 1) hk
          rw [hadd, hend]
          exact hlone (Or.inr hmem)
      · rw [hfew (Nat.lt_of_not_le hwords)] at ht
        cases ht

/-- With enough arguments the scanner comes to the end of the format. -/
theorem within_loop_end : ∀ (fuel : ℕ) (xs : List UInt8) (s : PrintfState), StringAt mem s.format xs →
    (∀ i ≤ xs.length, P (s.format + UInt32.ofNat i)) → xs.length < fuel →
    wordsLength (piecesFrom s.rejectedBadSpecifier 0 xs) ≤ s.parameters.length →
    Within P (loop readPrintfStep fuel s) mem →
    .reject [37] ∈ piecesFrom s.rejectedBadSpecifier 0 xs →
      P (s.format + UInt32.ofNat (xs.length + 1)) := by
  intro fuel
  induction fuel with
  | zero => intro xs s _ _ hlt; omega
  | succ fuel ih =>
    intro xs s h hP hlt hwords hwithin hmem
    have hzero : P s.format := holds_first hP
    cases xs with
    | nil => cases hmem
    | cons x xs =>
      obtain ⟨⟨piece, k⟩, hp⟩ : ∃ p, firstPiece s.rejectedBadSpecifier x xs = p := ⟨_, rfl⟩
      have hk := firstPiece_le s.rejectedBadSpecifier x xs
      rw [hp] at hk
      rw [piecesFrom_cons _ _ hp, List.mem_cons] at hmem
      rw [piecesFrom_cons _ _ hp, wordsLength_cons] at hwords
      rw [within_loop_cons h hzero, within_readPrintfBody h hP, hp] at hwithin
      rw [List.length_cons] at hlt
      rcases hmem with hfirst | hmem
      · exact hwithin.1 hfirst.symm
      · obtain ⟨printed, hbody, _⟩ := (printfBody_piece h hp).2 (by omega)
        have hrest := ih (xs.drop k) _ (stringAt_drop h hk) (fun i hi => ?_) ?_ ?_
          (hwithin.2 _ hbody) hmem
        · obtain ⟨hadd, _, hend⟩ := @add_ofNat_drop x xs s.format k ((xs.drop k).length + 1) hk
          rw [hadd, hend] at hrest
          exact hrest
        · obtain ⟨hadd, hle, _⟩ := @add_ofNat_drop x xs s.format k i hk
          rw [hadd]
          exact hP _ (hle hi)
        · rw [List.length_drop]
          omega
        · show wordsLength (piecesFrom (s.rejectedBadSpecifier || piece.rejects) 0 (xs.drop k)) ≤
            (s.parameters.drop piece.words).length
          rw [List.length_drop]
          omega

/-- A byte of the format, its terminating 0 included. -/
def InFormat (format : UInt32) (xs : List UInt8) (a : UInt32) : Prop := (a - format).toNat ≤ xs.length

/-- Whatever the arguments, only bytes of the format are read, and `printf` returns if there are as
many as it takes. -/
def PrintfSafe (mem : Mem) (format : UInt32) (xs : List UInt8) : Prop :=
  (∀ fuel parameters, Within (InFormat format xs) (readPrintf fuel format parameters) mem) ∧
    ∀ parameters, wordsLength (pieces xs) ≤ parameters.length →
      Returns (fun fuel => readPrintf fuel format parameters) mem

/-- **The reads of `printf`**: they stay in the format exactly if it does not end with a `%` while
directives are still understood, or if it takes the whole address space. -/
theorem printf_safe_iff {format : UInt32} (h : StringAt mem format xs) :
    PrintfSafe mem format xs ↔ (.reject [37] ∈ pieces xs → xs.length + 1 = 2 ^ 32) := by
  have hlen := h.length_lt
  have hin : ∀ i < 2 ^ 32, InFormat format xs (format + UInt32.ofNat i) ↔ i ≤ xs.length := by
    intro i hi
    rw [InFormat, show format + UInt32.ofNat i - format = UInt32.ofNat i by grind,
      toNat_ofNat_of_lt hi]
  have hP : ∀ i ≤ xs.length, InFormat format xs (format + UInt32.ofNat i) :=
    fun i hi => (hin i (by omega)).2 hi
  have hbehind : InFormat format xs (format + UInt32.ofNat (xs.length + 1)) ↔ xs.length + 1 = 2 ^ 32 := by
    by_cases hall : xs.length + 1 = 2 ^ 32
    · rw [hall]
      refine iff_of_true ?_ rfl
      rw [show UInt32.ofNat (2 ^ 32) = UInt32.ofNat 0 from rfl]
      exact hP 0 (Nat.zero_le _)
    · rw [hin _ (by omega)]
      omega
  rw [← hbehind]
  constructor
  · rintro ⟨hwithin, _⟩
    have hmany := hwithin (xs.length + 1) (List.replicate (wordsLength (pieces xs)) 0)
    exact within_loop_end _ xs _ h hP (Nat.lt_succ_self _) (by rw [List.length_replicate]; rfl) hmany
  · intro hlone
    refine ⟨fun fuel parameters => within_loop fuel xs _ h hP hlone, fun parameters hwords => ?_⟩
    obtain ⟨r, hr⟩ := printf_returns h hwords
    have hval : (readPrintf (2 ^ 32) format parameters mem).1 = printf mem format parameters :=
      readPrintf_eq _ _
    refine ⟨2 ^ 32, ?_⟩
    rw [hval, hr]
    exact Option.some_ne_none r

/-- `a%d%%%s` is read up to its end. -/
theorem printf_safe_greeting : PrintfSafe greeting 0 [97, 37, 100, 37, 37, 37, 115] := by
  have h : StringAt greeting 0 [97, 37, 100, 37, 37, 37, 115] := by
    simp only [StringAt]
    decide
  exact (printf_safe_iff h).2 fun hlone => absurd hlone (by decide)

/-- **A lone `%`**: to compare it with `hh` the byte behind the end of the format is read. -/
theorem printf_reads_behind : ¬ ∀ (mem : Mem) (format : UInt32) (xs : List UInt8),
    StringAt mem format xs → PrintfSafe mem format xs := by
  intro h
  have hformat : StringAt (fun a => [37, 0].getD a.toNat 0) 0 [37] := by
    simp only [StringAt]
    decide
  obtain ⟨hwithin, _⟩ := h _ _ _ hformat
  have hbehind := within_loop_end 2 [37] _ hformat (fun i hi => ?_) (by decide) (by decide)
    (hwithin 2 []) (by decide)
  · exact absurd hbehind (by
      rw [InFormat]
      decide)
  · rcases (by simpa using hi : i ≤ 1).eq_or_lt with rfl | hlt
    · exact le_rfl
    · obtain rfl : i = 0 := by omega
      exact Nat.zero_le 1

end Reads

end CometOS
