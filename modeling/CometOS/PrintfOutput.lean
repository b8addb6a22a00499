import CometOS.Printf

/-!
# What `printf` prints

One turn of the scanner takes a directive off the format, or a run of literal characters, and its
words off the arguments, and prints what they mean; the run lemma is by induction on the turns.
-/

namespace CometOS

open ByteMemory CString Loop Numeral Word32

section Printf

variable {mem : Mem} {s : PrintfState} {out : List UInt8}
  {digits : List UInt8} {base value : UInt64}

/-! ### Integers -/

theorem print_eq {data : ℕ → UInt8} {xs : List UInt8} (h : ∀ i (hi : i < xs.length), data i = xs[i]) :
    print data xs.length out = out ++ xs := by
  have hloop := @forUp_inv (List UInt8) (fun i o => o = out ++ xs.take i)
    (fun i out => out ++ [data i]) xs.length 0 out (by simp) (fun i o _ hi ho => by
      have hi' : i < xs.length := by omega
      rw [ho, h i hi', List.append_assoc, List.take_append_getElem hi'])
  rw [Nat.zero_add, List.take_length] at hloop
  exact hloop

/-- Each turn of the first loop finds one more digit. -/
theorem countDigits_loop (digit : ℕ → UInt8) (hb : 2 ≤ base.toNat) :
    ∀ (fuel : ℕ) (value : UInt64) (n : ℕ), value.toNat < fuel →
      (whileLoop (fun p : UInt64 × ℕ => base ≤ p.1) (fun p => some (p.1 / base, p.2 + 1)) fuel
        (value, n)).map Prod.snd =
      some (n + (numeral digit base.toNat value.toNat).length - 1) := by
  intro fuel
  induction fuel with
  | zero => intro value n h; omega
  | succ fuel ih =>
    intro value n h
    rw [whileLoop_succ]
    by_cases hle : base ≤ value
    · have hle' := UInt64.le_iff_toNat_le.1 hle
      have hlt := Nat.div_lt_self (show 0 < value.toNat by omega) hb
      have hdiv : (value / base).toNat = value.toNat / base.toNat := UInt64.toNat_div value base
      have hih := ih (value / base) (n + 1) (by omega)
      rw [hdiv] at hih
      rw [if_pos (decide_eq_true hle), Option.bind_some]
      refine hih.trans (congrArg some ?_)
      rw [numeral_of_le digit hb hle', List.length_append, List.length_singleton]
      omega
    · have hlt : value.toNat < base.toNat := by
        rw [UInt64.le_iff_toNat_le] at hle
        omega
      rw [if_neg (by rwa [decide_eq_true_iff]), numeral_of_lt digit hlt]
      rfl

theorem countDigits_eq (digit : ℕ → UInt8) (hb : 2 ≤ base.toNat) :
    countDigits value base = some (numeral digit base.toNat value.toNat).length := by
  rw [countDigits, countDigits_loop digit hb (2 ^ 64) value 1 value.toNat_lt]
  congr 1
  omega

/-- The second loop writes the digits from the last one on. -/
theorem fillDigits_eq (digit : ℕ → UInt8) (hb : 2 ≤ base.toNat)
    (hdigit : ∀ k, k < base.toNat → digits.getD k 0 = digit k) :
    ∀ (n : ℕ) (value : UInt64) (destination : ℕ → UInt8),
      n = (numeral digit base.toNat value.toNat).length →
      (∀ i (hi : i < (numeral digit base.toNat value.toNat).length),
        fillDigits base digits n value destination i = (numeral digit base.toNat value.toNat)[i]) ∧
      ∀ i, n ≤ i → fillDigits base digits n value destination i = destination i := by
  intro n
  induction n with
  | zero =>
    intro value destination hn
    exact absurd (List.length_eq_zero_iff.1 hn.symm) (numeral_ne_nil digit hb)
  | succ n ih =>
    intro value destination hn
    have hmod : (value % base).toNat = value.toNat % base.toNat := UInt64.toNat_mod value base
    have hdiv : (value / base).toNat = value.toNat / base.toNat := UInt64.toNat_div value base
    have hlast : digits.getD (value % base).toNat 0 = digit (value.toNat % base.toNat) := by
      rw [hmod]
      exact hdigit _ (Nat.mod_lt _ (by omega))
    rw [fillDigits, hlast]
    by_cases hlt : value.toNat < base.toNat
    · rw [numeral_of_lt digit hlt] at hn ⊢
      obtain rfl : n = 0 := by simpa using hn
      rw [Nat.mod_eq_of_lt hlt]
      refine ⟨fun i hi => ?_, fun i hi => ?_⟩
      · obtain rfl : i = 0 := by simpa using hi
        rfl
      · exact Function.update_of_ne (by omega) _ _
    · have hnum := numeral_of_le digit hb (n := value.toNat) (by omega)
      have hlen : n = (numeral digit base.toNat (value / base).toNat).length := by
        rw [hnum, List.length_append, List.length_singleton] at hn
        rw [hdiv]
        omega
      obtain ⟨h1, h2⟩ := ih (value / base)
        (Function.update destination n (digit (value.toNat % base.toNat))) hlen
      refine ⟨fun i hi => ?_, fun i hi => ?_⟩
      · by_cases hin : i < n
        · rw [h1 i (by omega)]
          simp only [hnum, hdiv]
          rw [List.getElem_append_left]
        · have hi' : i = n := by omega
          subst hi'
          rw [h2 i le_rfl, Function.update_self]
          simp only [hnum]
          rw [List.getElem_append_right (by rw [← hdiv, ← hlen])]
          simp
      · rw [h2 i (by omega), Function.update_of_ne (by omega)]

theorem baseOf_ge (conversion : UInt8) : 8 ≤ (baseOf conversion).toNat := by
  rw [baseOf]
  split
  · decide
  · split
    · decide
    · decide

/-- **`convert_integer`** writes the numeral, whatever was there, and nothing behind it. -/
theorem convertInteger_eq (digit : ℕ → UInt8) (hb : 2 ≤ base.toNat)
    (hdigit : ∀ k, k < base.toNat → digits.getD k 0 = digit k) (destination : ℕ → UInt8) :
    ∃ destination', convertInteger destination value base digits =
        some (destination', (numeral digit base.toNat value.toNat).length) ∧
      (∀ i (hi : i < (numeral digit base.toNat value.toNat).length),
        destination' i = (numeral digit base.toNat value.toNat)[i]) ∧
      ∀ i, (numeral digit base.toNat value.toNat).length ≤ i → destination' i = destination i := by
  have hfill := fillDigits_eq digit hb hdigit _ value destination rfl
  refine ⟨_, ?_, hfill⟩
  rw [convertInteger, countDigits_eq digit hb]
  rfl

/-- The digits, printed. -/
theorem printInteger_eq (digit : ℕ → UInt8) {conversion : UInt8} {negativeValue : Bool}
    {output : ℕ → UInt8} (hb : 2 ≤ (baseOf conversion).toNat)
    (hdigit : ∀ k, k < (baseOf conversion).toNat → (digitsOf conversion).getD k 0 = digit k) :
    printInteger conversion negativeValue value output s = some { s with
      out := s.out ++ ((if negativeValue then [45] else []) ++
        numeral digit (baseOf conversion).toNat value.toNat) } := by
  obtain ⟨output', hconvert, hhere, _⟩ := convertInteger_eq digit hb hdigit output
  rw [printInteger, hconvert, Option.map_some]
  simp only [print_eq hhere]
  cases negativeValue with
  | false => simp
  | true => simp

/-! ### Literal characters -/

/-- The loop of `print_c` passes a character and others after it up to a `%` or the end. -/
theorem printC_amount {p : UInt32} {x : UInt8} {xs ys : List UInt8} (h : StringAt mem p (x :: (xs ++ ys)))
    (hxs : ∀ c ∈ xs, c ≠ 37) (hys : ys.headD 37 = 37) :
    whileLoop (fun amount => mem (p + amount) ≠ 0 ∧ mem (p + amount) ≠ 37)
      (fun amount => some (amount + 1)) (2 ^ 32) 1 = some (UInt32.ofNat (xs.length + 1)) := by
  have hlen := h.length_lt
  rw [List.length_cons, List.length_append] at hlen
  -- the byte after them ends the run
  have hend : mem (p + UInt32.ofNat (xs.length + 1)) = 0 ∨
      mem (p + UInt32.ofNat (xs.length + 1)) = 37 := by
    have h' : StringAt mem (p + UInt32.ofNat (xs.length + 1)) ys := by
      rw [← List.cons_append] at h
      exact h.append
    cases ys with
    | nil => exact Or.inl h'
    | cons y ys =>
      rw [List.headD_cons] at hys
      right
      rw [h'.1, hys]
  refine scan_eq (f := fun c => c ≠ 0 ∧ c ≠ 37) ?_ 1 (by omega) (by omega) fun k hk hkn => ?_
  · rw [decide_eq_false_iff_not]
    rintro ⟨h0, h37⟩
    exact hend.elim h0 h37
  · obtain ⟨j, rfl⟩ : ∃ j, k = j + 1 := ⟨k - 1, by omega⟩
    obtain ⟨hb, h0⟩ := h.byte (i := j + 1) (by
      rw [List.length_cons, List.length_append]
      omega)
    rw [List.getElem_cons_succ, List.getElem_append_left (by omega)] at hb h0
    rw [decide_eq_true_iff, hb]
    exact ⟨h0, hxs _ (List.getElem_mem _)⟩

/-- **`print_c`**, there. -/
theorem printC_eq {x : UInt8} {xs ys : List UInt8} (h : StringAt mem s.format (x :: (xs ++ ys)))
    (hxs : ∀ c ∈ xs, c ≠ 37) (hys : ys.headD 37 = 37) :
    printC mem s = some { s with
      out := s.out ++ x :: xs
      format := s.format + UInt32.ofNat (xs.length + 1)
      written := s.written + UInt32.ofNat (xs.length + 1) } := by
  have hlen := h.length_lt
  rw [List.length_cons, List.length_append] at hlen
  have hbyte : ∀ i (hi : i < (x :: xs).length), mem (s.format + UInt32.ofNat i) = (x :: xs)[i] := by
    intro i hi
    have h' : StringAt mem s.format (x :: xs ++ ys) := h
    obtain ⟨hb, _⟩ := h'.byte (i := i) (by
      rw [List.length_append]
      omega)
    rwa [List.getElem_append_left hi] at hb
  have hamount : (UInt32.ofNat (xs.length + 1)).toNat = (x :: xs).length := by
    rw [toNat_ofNat_of_lt (by omega), List.length_cons]
  have hprint : print (fun i => mem (s.format + UInt32.ofNat i)) (x :: xs).length s.out =
      s.out ++ x :: xs := print_eq hbyte
  rw [printC, printC_amount h hxs hys]
  simp only [Option.map_some]
  rw [hamount, hprint]

/-! ### Strings -/

theorem print_string {p : UInt32} {xs : List UInt8} (h : StringAt mem p xs) :
    print (fun i => mem (p + UInt32.ofNat i)) (UInt32.ofNat xs.length).toNat out = out ++ xs := by
  rw [toNat_ofNat_of_lt h.length_lt]
  exact print_eq fun i hi => (h.byte hi).1

/-! ### Length modifiers -/

theorem nameDiffers_nil (mem : Mem) (p : UInt32) : nameDiffers mem p [] = false := rfl

theorem nameDiffers_one (mem : Mem) (p : UInt32) (a : UInt8) :
    nameDiffers mem p [a] = decide (mem p ≠ a) := by
  show (if mem (p + 0) ≠ a then true else false) = _
  rw [UInt32.add_zero]
  by_cases h : mem p = a
  · simp [h]
  · simp [h]

theorem nameDiffers_two (mem : Mem) (p : UInt32) (a b : UInt8) :
    nameDiffers mem p [a, b] = decide (mem p ≠ a ∨ mem (p + 1) ≠ b) := by
  show (if mem (p + 1) ≠ b then true else if mem (p + 0) ≠ a then true else false) = _
  rw [UInt32.add_zero]
  by_cases h : mem p = a
  · by_cases h' : mem (p + 1) = b
    · simp [h, h']
    · simp [h, h']
  · simp [h]

theorem lengthModifier_eq {length : IntLength} {p : UInt32} {c : UInt8} {ys : List UInt8}
    (h : StringAt mem p (length.name ++ c :: ys)) (hc : c ∉ [104, 108, 76, 106, 122, 116]) :
    lengthModifier mem p = (length.length, length.name.length) := by
  simp only [List.mem_cons, List.not_mem_nil, or_false, not_or] at hc
  obtain ⟨hh, hl, hL, hj, hz, ht⟩ := hc
  simp only [lengthModifier, lengthModifiers, List.foldl_cons, List.foldl_nil, nameDiffers_nil,
    nameDiffers_one, nameDiffers_two]
  cases length with
  | none =>
    have h0 : mem p = c := h.1
    simp [IntLength.name, IntLength.length, *]
  | l =>
    have h0 : mem p = 108 := h.1
    have h1 : mem (p + 1) = c := h.2.2.1
    simp [h0, h1, IntLength.name, IntLength.length, hl]
  | ll =>
    have h0 : mem p = 108 := h.1
    have h1 : mem (p + 1) = 108 := h.2.2.1
    simp [h0, h1, IntLength.name, IntLength.length]
  | j =>
    have h0 : mem p = 106 := h.1
    simp [h0, IntLength.name, IntLength.length]
  | t =>
    have h0 : mem p = 116 := h.1
    simp [h0, IntLength.name, IntLength.length]
  | z =>
    have h0 : mem p = 122 := h.1
    simp [h0, IntLength.name, IntLength.length]

/-! ### Arguments -/

theorem argWords_32 (v : BitVec 32) : argWords v = [UInt32.ofBitVec v] := by
  show [UInt32.ofBitVec (v.extractLsb' 0 32)] = _
  rw [BitVec.extractLsb'_eq_self]

theorem argWords_64 (v : BitVec 64) :
    argWords v = [UInt32.ofBitVec (v.extractLsb' 0 32), UInt32.ofBitVec (v.extractLsb' 32 32)] := rfl

theorem vaArg32_eq (v : BitVec 32) (rest : List UInt32) :
    vaArg32 (argWords v ++ rest) = some (UInt32.ofBitVec v, rest) := by
  rw [argWords_32]
  rfl

/-- Two words read back as they were pushed. -/
theorem vaArg64_eq (v : BitVec 64) (rest : List UInt32) :
    vaArg64 (argWords v ++ rest) = some (UInt64.ofBitVec v, rest) := by
  rw [argWords_64]
  refine congrArg (fun w => some (w, rest)) (UInt64.toBitVec_inj.1 ?_)
  show (v.extractLsb' 0 32).setWidth 64 ||| (v.extractLsb' 32 32).setWidth 64 <<< 32 = v
  ext i hi
  by_cases h : i < 32
  · simp [h, hi]
  · have hlow : i - 32 < 32 := by omega
    have hback : 32 + (i - 32) = i := by omega
    simp [h, hi, hlow, hback]

/-- A signed argument of the right width is read as its value. -/
theorem signedValue_eq {length : IntLength} (h : length ≠ .z) (v : BitVec length.bits)
    (rest : List UInt32) :
    ∃ read, signedValue length.length = some read ∧
      ∃ value : Int64, read (argWords v ++ rest) = some (value, rest) ∧ value.toInt = v.toInt := by
  cases length with
  | none | l | t =>
    refine ⟨_, rfl, (UInt32.ofBitVec v).toInt32.toInt64, ?_, ?_⟩
    · exact congrArg (Option.map fun p : UInt32 × List UInt32 => (p.1.toInt32.toInt64, p.2))
        (vaArg32_eq v rest)
    · rw [Int32.toInt_toInt64]
      rfl
  | ll | j =>
    exact ⟨_, rfl, (UInt64.ofBitVec v).toInt64, congrArg
      (Option.map fun p : UInt64 × List UInt32 => (p.1.toInt64, p.2)) (vaArg64_eq v rest), rfl⟩
  | z => exact absurd rfl h

/-- An unsigned argument of the right width is read as its value. -/
theorem unsignedValue_eq {length : IntLength} (h : length ≠ .t) (v : BitVec length.bits)
    (rest : List UInt32) :
    ∃ read, unsignedValue length.length = some read ∧
      ∃ value : UInt64, read (argWords v ++ rest) = some (value, rest) ∧ value.toNat = v.toNat := by
  cases length with
  | none | l | z =>
    refine ⟨_, rfl, (UInt32.ofBitVec v).toUInt64, ?_, ?_⟩
    · exact congrArg (Option.map fun p : UInt32 × List UInt32 => (p.1.toUInt64, p.2))
        (vaArg32_eq v rest)
    · rw [UInt32.toNat_toUInt64]
      rfl
  | ll | j =>
    exact ⟨_, rfl, UInt64.ofBitVec v, vaArg64_eq v rest, rfl⟩
  | t => exact absurd rfl h

/-- The magnitude of a signed value, the least one included. -/
theorem toNat_magnitude (value : Int64) :
    (if value < 0 then -value.toUInt64 else value.toUInt64).toNat = value.toInt.natAbs := by
  have hsize : UInt64.size = 2 ^ 64 := rfl
  have hlt := value.toUInt64.toNat_lt
  have hint : value.toInt = if 2 * value.toUInt64.toNat < 2 ^ 64 then (value.toUInt64.toNat : ℤ)
      else (value.toUInt64.toNat : ℤ) - 2 ^ 64 := BitVec.toInt_eq_toNat_cond value.toBitVec
  simp only [Int64.lt_iff_toInt_lt, show (0 : Int64).toInt = 0 from rfl, hint]
  by_cases hpos : 2 * value.toUInt64.toNat < 2 ^ 64
  · rw [if_pos hpos, if_neg (by omega)]
    omega
  · rw [if_neg hpos, if_pos (by omega), UInt64.toNat_neg, hsize]
    omega

/-! ### Directives -/

variable {ds : List Directive} {extra : List UInt32}

/-- Where the scanner is between two turns: the rest of the format and of the arguments are those of
the directives to come. -/
structure Ready (mem : Mem) (extra : List UInt32) (s : PrintfState) (ds : List Directive) : Prop where
  format : StringAt mem s.format (ds.flatMap Directive.text)
  parameters : s.parameters = ds.flatMap Directive.words ++ extra
  accepted : s.rejectedBadSpecifier = false
  strings : ∀ d ∈ ds, d.Matches mem

/-- Up to the next `%` a format is text. -/
theorem literal_prefix (ds : List Directive) :
    ∃ (xs : List UInt8) (ds' : List Directive),
      ds.flatMap Directive.text = xs ++ ds'.flatMap Directive.text ∧
      ds.flatMap Directive.output = xs ++ ds'.flatMap Directive.output ∧
      ds.flatMap Directive.words = ds'.flatMap Directive.words ∧
      ds'.length ≤ ds.length ∧ (∀ d ∈ ds', d ∈ ds) ∧ (∀ c ∈ xs, c ≠ 37) ∧
      (ds'.flatMap Directive.text).headD 37 = 37 := by
  induction ds with
  | nil => exact ⟨[], [], rfl, rfl, rfl, le_rfl, fun _ h => h, fun _ h => (List.not_mem_nil h).elim, rfl⟩
  | cons d ds ih =>
    cases d with
    | literal c h0 h37 =>
      obtain ⟨xs, ds', htext, hout, hwords, hlen, hsub, hxs, hhead⟩ := ih
      refine ⟨c :: xs, ds', ?_, ?_, ?_, ?_, fun d hd => List.mem_cons_of_mem _ (hsub d hd), ?_, hhead⟩
      · rw [List.flatMap_cons, htext]
        rfl
      · rw [List.flatMap_cons, hout]
        rfl
      · rw [List.flatMap_cons, hwords]
        rfl
      · rw [List.length_cons]
        omega
      · intro c' hc'
        rcases List.mem_cons.1 hc' with rfl | hc'
        · exact h37
        · exact hxs c' hc'
    | percent | char _ | string _ _ | signed _ _ _ _ | unsigned _ _ _ _ =>
      exact ⟨[], _, rfl, rfl, rfl, le_rfl, fun _ h => h, fun _ h => (List.not_mem_nil h).elim, rfl⟩

/-- A turn of the scanner: fewer directives to come, and what they will print has not changed. -/
def Turn (mem : Mem) (extra : List UInt32) (s : PrintfState) (d : Directive) (ds : List Directive)
    (r : Option PrintfState) : Prop :=
  ∃ s' ds', r = some s' ∧ Ready mem extra s' ds' ∧ ds'.length ≤ ds.length ∧
    s'.out ++ ds'.flatMap Directive.output = s.out ++ (d.output ++ ds.flatMap Directive.output)

/-- Literal text, after a character that stands for itself or a second `%`. -/
theorem printC_turn {x : UInt8} {d : Directive} (hd : d.output = [x]) (hw : d.words = [])
    (hformat : StringAt mem s.format (x :: ds.flatMap Directive.text))
    (hparameters : s.parameters = (d :: ds).flatMap Directive.words ++ extra)
    (haccepted : s.rejectedBadSpecifier = false) (hstrings : ∀ d ∈ ds, d.Matches mem) :
    Turn mem extra s d ds (printC mem s) := by
  obtain ⟨xs, ds', htext, hout, hwords, hlen, hsub, hxs, hhead⟩ := literal_prefix ds
  rw [htext] at hformat
  refine ⟨_, ds', printC_eq hformat hxs hhead, ⟨?_, ?_, haccepted, fun d hd => hstrings d (hsub d hd)⟩,
    hlen, ?_⟩
  · have h : StringAt mem s.format (x :: xs ++ ds'.flatMap Directive.text) := hformat
    exact h.append
  · rw [hparameters, List.flatMap_cons, hw, List.nil_append, hwords]
  · rw [hd, hout]
    simp

/-- The characters of the conversions are those of `printfConversion`. -/
theorem SignedConversion.char_eq (c : SignedConversion) : c.char = 105 ∨ c.char = 100 := by
  cases c <;> decide

theorem UnsignedConversion.char_eq (c : UnsignedConversion) :
    c.char ≠ 105 ∧ c.char ≠ 100 ∧ (c.char = 111 ∨ c.char = 117 ∨ c.char = 120 ∨ c.char = 88) := by
  cases c <;> decide

theorem SignedConversion.base_eq (c : SignedConversion) : baseOf c.char = 10 := by
  cases c <;> rfl

theorem UnsignedConversion.base_eq (c : UnsignedConversion) : (baseOf c.char).toNat = c.base := by
  cases c <;> rfl

theorem SignedConversion.digit_eq (c : SignedConversion) (k : ℕ) (hk : k < 10) :
    (digitsOf c.char).getD k 0 = lowerDigit k := by
  cases c <;> interval_cases k <;> rfl

theorem UnsignedConversion.digit_eq (c : UnsignedConversion) (k : ℕ) (hk : k < c.base) :
    (digitsOf c.char).getD k 0 = c.digit k := by
  have h16 : k < 16 := by
    cases c <;> simp only [UnsignedConversion.base] at hk <;> omega
  cases c <;> interval_cases k <;> rfl

/-- The `%` and the length modifier are passed over. -/
theorem printfBody_percent {c : UInt8} (length : IntLength) {ys : List UInt8}
    (h : StringAt mem s.format (37 :: (length.name ++ c :: ys)))
    (haccepted : s.rejectedBadSpecifier = false)
    (hc : c ∉ [37, 104, 108, 76, 106, 122, 116]) :
    printfBody mem s = printfConversion mem length.length s.format
        { s with format := s.format + 1 + UInt32.ofNat length.name.length } ∧
      StringAt mem (s.format + 1 + UInt32.ofNat length.name.length) (c :: ys) := by
  obtain ⟨h37, _, hrest⟩ := h
  have hmod := lengthModifier_eq hrest fun hm => hc (List.mem_cons_of_mem _ hm)
  have hne : mem (s.format + 1) ≠ 37 := by
    cases length with
    | none =>
      rw [hrest.1]
      rintro rfl
      exact hc List.mem_cons_self
    | l | ll | j | t | z =>
      rw [hrest.1]
      decide
  refine ⟨?_, hrest.append⟩
  rw [printfBody, if_neg (not_not.2 h37)]
  simp only [if_neg hne, haccepted, hmod]
  rfl

/-- What follows a conversion that takes its words and no more of the format. -/
theorem turn_of_eq {d : Directive} {s' : PrintfState}
    (hformat : StringAt mem s'.format (ds.flatMap Directive.text))
    (hparameters : s'.parameters = ds.flatMap Directive.words ++ extra)
    (haccepted : s'.rejectedBadSpecifier = false) (hstrings : ∀ d ∈ ds, d.Matches mem)
    (hout : s'.out = s.out ++ d.output) : Turn mem extra s d ds (some s') := by
  refine ⟨s', ds, rfl, ⟨hformat, hparameters, haccepted, hstrings⟩, le_rfl, ?_⟩
  rw [hout, List.append_assoc]

/-- The text of a conversion, and what comes after it. -/
theorem Ready.format_cons {d : Directive} (h : Ready mem extra s (d :: ds)) {name : List UInt8}
    {c : UInt8} (hd : d.text = 37 :: name ++ [c]) :
    StringAt mem s.format (37 :: (name ++ c :: ds.flatMap Directive.text)) := by
  have hf := h.format
  rw [List.flatMap_cons, hd, List.append_assoc] at hf
  exact hf

/-- The words of a conversion, and what comes after them. -/
theorem Ready.parameters_cons {d : Directive} (h : Ready mem extra s (d :: ds)) :
    s.parameters = d.words ++ (ds.flatMap Directive.words ++ extra) := by
  rw [h.parameters, List.flatMap_cons, List.append_assoc]

/-- **`%d` and `%i`.** -/
theorem signed_turn {conversion : SignedConversion} {length : IntLength} {hz : length ≠ .z}
    {value : BitVec length.bits} (h : Ready mem extra s (.signed conversion length hz value :: ds)) :
    Turn mem extra s (.signed conversion length hz value) ds (printfBody mem s) := by
  obtain ⟨hbody, hnext⟩ := printfBody_percent length (h.format_cons rfl) h.accepted
    (by cases conversion <;> decide)
  obtain ⟨read, hread, v, hv, hval⟩ := signedValue_eq hz value (ds.flatMap Directive.words ++ extra)
  have hparameters : s.parameters = argWords value ++ (ds.flatMap Directive.words ++ extra) :=
    h.parameters_cons
  have hint := conversion.char_eq
  have hbase : (baseOf conversion.char).toNat = 10 := by
    rw [conversion.base_eq]
    rfl
  rw [hbody, printfConversion]
  simp only [hnext.1]
  rw [if_pos (hint.elim (fun h105 => Or.inr (Or.inl h105)) Or.inl), if_pos hint, hread]
  simp only [hparameters, hv, Option.bind_some]
  rw [printInteger_eq lowerDigit (by rw [hbase]; omega)
    (by rw [hbase]; exact conversion.digit_eq)]
  refine turn_of_eq hnext.2.2 rfl h.accepted (fun d hd => h.strings d (List.mem_cons_of_mem _ hd)) ?_
  rw [hbase, toNat_magnitude, hval, Directive.output]
  simp only [decide_eq_true_iff, Int64.lt_iff_toInt_lt, hval, show (0 : Int64).toInt = 0 from rfl]

/-- **`%u`, `%o`, `%x` and `%X`.** -/
theorem unsigned_turn {conversion : UnsignedConversion} {length : IntLength} {ht : length ≠ .t}
    {value : BitVec length.bits} (h : Ready mem extra s (.unsigned conversion length ht value :: ds)) :
    Turn mem extra s (.unsigned conversion length ht value) ds (printfBody mem s) := by
  obtain ⟨hbody, hnext⟩ := printfBody_percent length (h.format_cons rfl) h.accepted
    (by cases conversion <;> decide)
  obtain ⟨read, hread, v, hv, hval⟩ := unsignedValue_eq ht value (ds.flatMap Directive.words ++ extra)
  have hparameters : s.parameters = argWords value ++ (ds.flatMap Directive.words ++ extra) :=
    h.parameters_cons
  obtain ⟨hni, hnd, _⟩ := conversion.char_eq
  have hinteger : conversion.char = 100 ∨ conversion.char = 105 ∨ conversion.char = 111 ∨
      conversion.char = 117 ∨ conversion.char = 120 ∨ conversion.char = 88 ∨
      conversion.char = 112 := by cases conversion <;> decide
  have hbase := conversion.base_eq
  have h2 : 2 ≤ conversion.base := by cases conversion <;> decide
  rw [hbody, printfConversion]
  simp only [hnext.1]
  rw [if_pos hinteger, if_neg (not_or.2 ⟨hni, hnd⟩), hread]
  simp only [hparameters, hv, Option.bind_some]
  rw [printInteger_eq conversion.digit (by rw [hbase]; exact h2)
    (by rw [hbase]; exact conversion.digit_eq)]
  refine turn_of_eq hnext.2.2 rfl h.accepted (fun d hd => h.strings d (List.mem_cons_of_mem _ hd)) ?_
  rw [hbase, hval, Directive.output]
  rfl

/-- **One turn** of the scanner prints one directive, and the text after it if it is a `%%` or text
itself. -/
theorem printfBody_turn {d : Directive} (h : Ready mem extra s (d :: ds)) :
    Turn mem extra s d ds (printfBody mem s) := by
  have hstrings : ∀ d ∈ ds, d.Matches mem := fun d hd => h.strings d (List.mem_cons_of_mem _ hd)
  cases d with
  | literal c h0 h37 =>
    have hformat : StringAt mem s.format (c :: ds.flatMap Directive.text) := h.format
    rw [printfBody, if_pos (by rw [hformat.1]; exact h37)]
    exact printC_turn rfl rfl hformat h.parameters h.accepted hstrings
  | percent =>
    have hformat : StringAt mem s.format (37 :: 37 :: ds.flatMap Directive.text) := h.format
    rw [printfBody, if_neg (not_not.2 hformat.1)]
    simp only [if_pos hformat.2.2.1]
    exact printC_turn (s := { s with format := s.format + 1 }) rfl rfl hformat.2.2 h.parameters
      h.accepted hstrings
  | char arg =>
    obtain ⟨hbody, hnext⟩ :=
      printfBody_percent (c := 99) .none h.format h.accepted (by decide)
    have hparameters : s.parameters = arg :: (ds.flatMap Directive.words ++ extra) := h.parameters
    rw [hbody, printfConversion]
    simp only [hnext.1, hparameters]
    exact turn_of_eq hnext.2.2 rfl h.accepted hstrings rfl
  | string ptr bytes =>
    obtain ⟨hbody, hnext⟩ :=
      printfBody_percent (c := 115) .none h.format h.accepted (by decide)
    have hparameters : s.parameters = ptr :: (ds.flatMap Directive.words ++ extra) := h.parameters
    have hbytes : StringAt mem ptr bytes := h.strings _ List.mem_cons_self
    rw [hbody, printfConversion]
    simp only [hnext.1, hparameters]
    rw [if_neg (by decide), if_neg (by decide)]
    simp only [if_true, vaArg32, Option.bind_some, strlen_eq hbytes, Option.map_some, print_string hbytes]
    exact turn_of_eq hnext.2.2 rfl h.accepted hstrings rfl
  | signed conversion length hz value => exact signed_turn h
  | unsigned conversion length ht value => exact unsigned_turn h

/-! ### The whole format -/

theorem Directive.text_cons (d : Directive) : ∃ c cs, d.text = c :: cs := by
  cases d <;> exact ⟨_, _, rfl⟩

theorem length_le_text (ds : List Directive) : ds.length ≤ (ds.flatMap Directive.text).length := by
  induction ds with
  | nil => exact le_rfl
  | cons d ds ih =>
    obtain ⟨c, cs, hc⟩ := d.text_cons
    rw [List.flatMap_cons, hc, List.length_append, List.length_cons, List.length_cons]
    omega

theorem printf_loop : ∀ (fuel : ℕ) (ds : List Directive) (s : PrintfState), ds.length < fuel →
    Ready mem extra s ds →
    ∃ s', whileLoop (fun s : PrintfState => mem s.format ≠ 0) (printfBody mem) fuel s = some s' ∧
      s'.out = s.out ++ ds.flatMap Directive.output := by
  intro fuel
  induction fuel with
  | zero => intro ds s hlt _; omega
  | succ fuel ih =>
    intro ds s hlt h
    rw [whileLoop_succ]
    cases ds with
    | nil =>
      have hend : mem s.format = 0 := h.format
      exact ⟨s, by rw [if_neg (by rw [hend]; decide)], by simp⟩
    | cons d ds =>
      have hne : mem s.format ≠ 0 := by
        obtain ⟨c, cs, hc⟩ := d.text_cons
        have hf := h.format
        rw [List.flatMap_cons, hc, List.cons_append] at hf
        rw [hf.1]
        exact hf.2.1
      obtain ⟨s₁, ds₁, hs₁, h₁, hlen, hout⟩ := printfBody_turn h
      rw [List.length_cons] at hlt
      obtain ⟨s', hs', hout'⟩ := ih ds₁ s₁ (by omega) h₁
      refine ⟨s', ?_, ?_⟩
      · rw [if_pos (decide_eq_true hne), hs₁, Option.bind_some, hs']
      · rw [hout', hout, List.flatMap_cons]

/-- **`printf`** passes to `putchar` what the directives mean, one after the other. -/
theorem printf_output (mem : Mem) (format : UInt32) (ds : List Directive) (extra : List UInt32)
    (hformat : StringAt mem format (ds.flatMap Directive.text))
    (hstrings : ∀ d ∈ ds, d.Matches mem) :
    (printf mem format (ds.flatMap Directive.words ++ extra)).map PrintfState.out =
      some (ds.flatMap Directive.output) := by
  have hlen : ds.length < 2 ^ 32 := (length_le_text ds).trans_lt hformat.length_lt
  obtain ⟨s', hs', hout⟩ := @printf_loop mem extra (2 ^ 32) ds
    { format, parameters := ds.flatMap Directive.words ++ extra, written := 0
      rejectedBadSpecifier := false, out := [] } hlen ⟨hformat, rfl, rfl, hstrings⟩
  rw [printf, hs', Option.map_some, hout, List.nil_append]

/-- `a%d%%%s`, with the string `hi` at 16. -/
def greeting : Mem := fun a =>
  [97, 37, 100, 37, 37, 37, 115, 0, 0, 0, 0, 0, 0, 0, 0, 0, 104, 105].getD a.toNat 0

theorem printf_output_greeting :
    (printf greeting 0 ([Directive.literal 97 (by decide) (by decide),
        .signed .d .none (by decide) (-5), .percent, .string 16 [104, 105]].flatMap
          Directive.words ++ [])).map PrintfState.out =
      some ([Directive.literal 97 (by decide) (by decide),
        .signed .d .none (by decide) (-5), .percent, .string 16 [104, 105]].flatMap
          Directive.output) := by
  apply printf_output
  · simp only [List.flatMap_cons, List.flatMap_nil, Directive.text, IntLength.name,
      SignedConversion.char, List.append_nil, List.nil_append, List.cons_append, StringAt]
    decide
  · intro d hd
    simp only [List.mem_cons, List.not_mem_nil, or_false] at hd
    rcases hd with rfl | rfl | rfl | rfl
    · trivial
    · trivial
    · trivial
    · exact ⟨rfl, by decide, rfl, by decide, rfl⟩

end Printf

end CometOS
