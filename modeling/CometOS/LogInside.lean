import CometOS.LogOutput

/-!
# Where `vasprintf` stays inside its buffer

The number of characters a format comes to is added up along the format, piece by piece, without a
buffer.  `vasprintf` stores exactly at the places up to that number, the last one for the `NUL`.
-/

namespace CometOS

open ByteMemory CString LogBuffer Loop Numeral Word32

/-! ### How long the output is -/

/-- The conversion takes an argument. -/
def takesArgument (conversion : UInt8) : Bool :=
  conversion = 115 ∨ conversion = 99 ∨ conversion = 120 ∨ conversion = 100

/-- The characters one conversion comes to: a string is as long as it is, a number has its digits or
the width, and anything else is one character. -/
def conversionLength (mem : Mem) (arg argWidth : UInt32) (conversion : UInt8) : ℕ :=
  if conversion = 115 then
    if arg = 0 then nullText.length else (strlen mem arg).elim 0 UInt32.toNat
  else if conversion = 120 then
    max (hexPad argWidth).toNat (numeral lowerDigit 16 arg.toNat).length
  else if conversion = 100 then max argWidth.toNat (decLength arg)
  else 1

/-- The characters the rest of a format comes to; `width` is the width so far, inside a directive,
and `next` arguments have been taken.  At the end of the format a directive without a conversion
character still counts: the `NUL` there is copied. -/
def logLength (mem : Mem) (args : ℕ → UInt32) : List UInt8 → Option UInt32 → ℕ → ℕ
  | [], none, _ => 0
  | [], some _, _ => 1
  | c :: fmt, none, next =>
    if c = 37 then logLength mem args fmt (some 0) next
    else 1 + logLength mem args fmt none next
  | c :: fmt, some width, next =>
    if 48 ≤ c ∧ c ≤ 57 then logLength mem args fmt (some (width * 10 + (c - 48).toUInt32)) next
    else
      conversionLength mem (args next) width c +
        logLength mem args fmt none (if takesArgument c then next + 1 else next)

section Run

variable {mem : Mem} {fmt : UInt32} {args : ℕ → UInt32} {xs : List UInt8}

/-! ### One directive -/

theorem logString_eq {p : UInt32} (h : StringAt mem p xs) (b : LogBuffer) :
    logString mem p b = some (b.appendAll xs) := by
  have hlen := h.length_lt
  have hiter : ∀ k ≤ xs.length,
      (fun p : UInt32 × LogBuffer => (p.1 + 1, p.2.append (mem p.1)))^[k] (p, b) =
        (p + UInt32.ofNat k, b.appendAll (xs.take k)) := by
    intro k hk
    induction k with
    | zero =>
      rw [show UInt32.ofNat 0 = 0 from rfl, UInt32.add_zero]
      rfl
    | succ k ih =>
      rw [Function.iterate_succ_apply', ih (by omega), ofNat_succ, ← UInt32.add_assoc,
        ← List.take_append_getElem (show k < xs.length from hk), appendAll_append]
      show (_, LogBuffer.append _ _) = _
      rw [(h.byte (show k < xs.length from hk)).1]
      rfl
  have hloop := whileLoop_first
    (f := fun p : UInt32 × LogBuffer => (p.1 + 1, p.2.append (mem p.1)))
    (c := fun p => decide (mem p.1 ≠ 0)) xs.length (p, b) (fun k hk => ?_) ?_ (2 ^ 32) hlen
  · rw [logString, hloop, hiter _ le_rfl, List.take_length]
    rfl
  · rw [hiter k hk.le, decide_eq_true_iff, (h.byte hk).1]
    exact (h.byte hk).2
  · rw [hiter _ le_rfl, decide_eq_false_iff_not, h.terminator]
    exact not_not.2 rfl

/-- What a conversion does to the cursor and to the arguments. -/
theorem logConversion_advanced (args : ℕ → UInt32) {z : UInt32} (hz : mem z = 0) (conversion : UInt8)
    (argWidth : UInt32) (s : LogState) :
    ∃ out, logConversion mem args conversion argWidth s = some { s with
        next := if takesArgument conversion then s.next + 1 else s.next, out } ∧
      Advanced s.out out (conversionLength mem (args s.next) argWidth conversion) := by
  unfold logConversion conversionLength takesArgument
  by_cases hs : conversion = 115
  · simp only [hs, true_or, decide_true, if_true]
    by_cases hnull : args s.next = 0
    · simp only [hnull, if_true]
      exact ⟨_, rfl, appendAll_advanced _ _⟩
    · obtain ⟨xs, hxs⟩ := exists_stringAt hz (args s.next)
      simp only [hnull, if_false, logString_eq hxs, strlen_eq hxs, Option.map_some]
      refine ⟨_, rfl, ?_⟩
      rw [Option.elim_some, toNat_ofNat_of_lt hxs.length_lt]
      exact appendAll_advanced _ _
  · by_cases hc : conversion = 99
    · simp only [hc]
      exact ⟨_, rfl, append_advanced _ _⟩
    · by_cases hx : conversion = 120
      · simp only [hx, printHex_eq]
        refine ⟨_, rfl, ?_⟩
        have hadv := appendAll_advanced s.out (hexText (args s.next) argWidth)
        have hlen : (hexText (args s.next) argWidth).length =
            max (hexPad argWidth).toNat (numeral lowerDigit 16 (args s.next).toNat).length := by
          rw [hexText, List.length_append, List.length_replicate]
          omega
        rw [hlen] at hadv
        exact hadv
      · by_cases hd : conversion = 100
        · obtain ⟨out, hout, happ⟩ := printDec_appends (args s.next) argWidth s.out
          simp only [hd, hout]
          refine ⟨out, rfl, ?_⟩
          have hadv := happ.toAdvanced
          rw [decText_length] at hadv
          exact hadv
        · simp only [hs, hc, hx, hd, or_self, decide_false, if_false, Bool.false_eq_true]
          by_cases hp : conversion = 37
          · simp only [hp, if_true]
            exact ⟨_, rfl, append_advanced _ _⟩
          · simp only [hp, if_false]
            exact ⟨_, rfl, append_advanced _ _⟩

/-- The width is read up to the first character that is no digit; nothing of the count changes. -/
theorem logWidth_eq (mem : Mem) (fmt : UInt32) (args : ℕ → UInt32) (next : ℕ) :
    ∀ (xs : List UInt8) (i fuel : ℕ) (width : UInt32), StringAt mem (fmt + UInt32.ofNat i) xs →
      xs.length < fuel → ∃ i' width' rest,
        whileLoop (fun p : ℕ × UInt32 =>
            48 ≤ mem (fmt + UInt32.ofNat p.1) ∧ mem (fmt + UInt32.ofNat p.1) ≤ 57)
          (fun p => some (p.1 + 1, p.2 * 10 + (mem (fmt + UInt32.ofNat p.1) - 48).toUInt32)) fuel
          (i, width) = some (i', width') ∧
        StringAt mem (fmt + UInt32.ofNat i') rest ∧ i' + rest.length = i + xs.length ∧
        rest.length ≤ xs.length ∧ ¬ (48 ≤ rest.headD 0 ∧ rest.headD 0 ≤ 57) ∧
        logLength mem args xs (some width) next = logLength mem args rest (some width') next := by
  intro xs
  induction xs with
  | nil =>
    intro i fuel width h hfuel
    obtain ⟨fuel, rfl⟩ : ∃ k, fuel = k + 1 := ⟨fuel - 1, by omega⟩
    have hzero : mem (fmt + UInt32.ofNat i) = 0 := h
    refine ⟨i, width, [], ?_, h, rfl, le_rfl, by decide, rfl⟩
    rw [whileLoop_succ, if_neg]
    rw [decide_eq_true_iff, hzero]
    decide
  | cons x xs ih =>
    intro i fuel width h hfuel
    obtain ⟨fuel, rfl⟩ : ∃ k, fuel = k + 1 := ⟨fuel - 1, by omega⟩
    have hx : mem (fmt + UInt32.ofNat i) = x := h.1
    rw [whileLoop_succ]
    by_cases hdigit : 48 ≤ x ∧ x ≤ 57
    · rw [List.length_cons] at hfuel
      obtain ⟨i', width', rest, hloop, hrest, hplace, hle, hno, hcount⟩ :=
        ih (i + 1) fuel (width * 10 + (x - 48).toUInt32)
          (by rw [ofNat_succ, ← UInt32.add_assoc]; exact h.2.2) (by omega)
      refine ⟨i', width', rest, ?_, hrest, ?_, ?_, hno, ?_⟩
      · rw [if_pos (by rw [decide_eq_true_iff, hx]; exact hdigit), Option.bind_some, hx]
        exact hloop
      · rw [hplace, List.length_cons]
        omega
      · rw [List.length_cons]
        omega
      · rw [logLength, if_pos hdigit, hcount]
    · refine ⟨i, width, x :: xs, ?_, h, rfl, le_rfl, hdigit, rfl⟩
      rw [if_neg]
      rw [decide_eq_true_iff, hx]
      exact hdigit

/-- One turn takes a character or a directive off the format, and moves the cursor on by what it
comes to.  A directive that is cut off takes the `NUL` with it. -/
theorem logBody_advanced (args : ℕ → UInt32) {x : UInt8} {s : LogState}
    (h : StringAt mem (fmt + UInt32.ofNat s.i) (x :: xs)) :
    ∃ s' rest n, logBody mem fmt args s = some s' ∧ Advanced s.out s'.out n ∧
      (StringAt mem (fmt + UInt32.ofNat s'.i) rest ∧ s'.i + rest.length = s.i + (xs.length + 1) ∨
        rest = [] ∧ s'.i = s.i + (xs.length + 1) + 1) ∧
      rest.length ≤ xs.length ∧
      logLength mem args (x :: xs) none s.next = n + logLength mem args rest none s'.next := by
  have hlen := h.length_lt
  rw [List.length_cons] at hlen
  have hx : mem (fmt + UInt32.ofNat s.i) = x := h.1
  have hnext : StringAt mem (fmt + UInt32.ofNat (s.i + 1)) xs := by
    rw [ofNat_succ, ← UInt32.add_assoc]
    exact h.2.2
  unfold logBody
  simp only [hx]
  by_cases hpercent : x = 37
  · obtain ⟨i', width, rest, hloop, hrest, hplace, hle, hno, hcount⟩ :=
      logWidth_eq mem fmt args s.next xs (s.i + 1) (2 ^ 32) 0 hnext (by omega)
    obtain ⟨out, hout, hadv⟩ := logConversion_advanced args h.terminator
      (mem (fmt + UInt32.ofNat i')) width { s with i := i' }
    rw [if_neg (not_not.2 hpercent), logWidth, hloop]
    show ∃ s' rest n, ((logConversion mem args (mem (fmt + UInt32.ofNat i')) width
      { s with i := i' }).bind fun s => some { s with i := s.i + 1 }) = some s' ∧ _
    rw [hout, Option.bind_some]
    rw [logLength, if_pos hpercent, hcount]
    cases rest with
    | nil =>
      have hzero : mem (fmt + UInt32.ofNat i') = 0 := hrest
      rw [hzero] at hadv
      refine ⟨_, [], _, rfl, hadv, Or.inr ⟨rfl, ?_⟩, Nat.zero_le _, ?_⟩
      · rw [List.length_nil] at hplace
        show i' + 1 = _
        omega
      · rfl
    | cons y ys =>
      have hy : mem (fmt + UInt32.ofNat i') = y := hrest.1
      rw [List.headD_cons] at hno
      rw [hy] at hadv
      rw [List.length_cons] at hplace hle
      refine ⟨_, ys, _, rfl, hadv, Or.inl ⟨?_, ?_⟩, by omega, ?_⟩
      · show StringAt mem (fmt + UInt32.ofNat (i' + 1)) ys
        rw [ofNat_succ, ← UInt32.add_assoc]
        exact hrest.2.2
      · show i' + 1 + ys.length = _
        omega
      · rw [logLength, if_neg hno, hy]
  · rw [if_pos hpercent]
    refine ⟨_, xs, 1, rfl, append_advanced _ _, Or.inl ⟨hnext, ?_⟩, le_rfl, ?_⟩
    · show s.i + 1 + xs.length = _
      omega
    · rw [logLength, if_neg hpercent]

/-! ### The whole format -/

/-- The loop moves the cursor on by what the format comes to. -/
theorem logLoop_advanced (len : ℤ) (m : ℕ) :
    ∀ (xs : List UInt8) (s : LogState) (fuel : ℕ), xs.length ≤ m →
      StringAt mem (fmt + UInt32.ofNat s.i) xs → ((s.i + xs.length : ℕ) : ℤ) = len →
      xs.length < fuel → ∃ s',
        whileLoop (fun s : LogState => (s.i : ℤ) < len ∧ mem (fmt + UInt32.ofNat s.i) ≠ 0)
          (logBody mem fmt args) fuel s = some s' ∧
        Advanced s.out s'.out (logLength mem args xs none s.next) := by
  induction m with
  | zero =>
    intro xs s fuel hm h hlen hfuel
    obtain rfl := List.length_eq_zero_iff.1 (Nat.le_zero.1 hm)
    obtain ⟨fuel, rfl⟩ : ∃ k, fuel = k + 1 := ⟨fuel - 1, by omega⟩
    have hzero : mem (fmt + UInt32.ofNat s.i) = 0 := h
    refine ⟨s, ?_, Advanced.refl _⟩
    rw [whileLoop_succ, if_neg]
    rw [decide_eq_true_iff]
    rintro ⟨-, hne⟩
    exact hne hzero
  | succ m ih =>
    intro xs s fuel hm h hlen hfuel
    cases xs with
    | nil => exact ih [] s fuel (Nat.zero_le m) h hlen hfuel
    | cons x xs =>
      rw [List.length_cons] at hm hlen hfuel
      obtain ⟨fuel, rfl⟩ : ∃ k, fuel = k + 1 := ⟨fuel - 1, by omega⟩
      obtain ⟨s', rest, n, hbody, hadv, hrest, hle, hcount⟩ := logBody_advanced args h
      have hcond : (s.i : ℤ) < len ∧ mem (fmt + UInt32.ofNat s.i) ≠ 0 := by
        refine ⟨by omega, ?_⟩
        rw [h.1]
        exact h.2.1
      rw [whileLoop_succ, if_pos (by rwa [decide_eq_true_iff]), hbody, Option.bind_some, hcount]
      rcases hrest with ⟨hstring, hplace⟩ | ⟨rfl, hplace⟩
      · obtain ⟨s'', hloop, hadv'⟩ := ih rest s' fuel (by omega) hstring (by omega) (by omega)
        exact ⟨s'', hloop, hadv.trans hadv'⟩
      · -- the cursor in the format has passed its end
        obtain ⟨fuel, rfl⟩ : ∃ k, fuel = k + 1 := ⟨fuel - 1, by omega⟩
        refine ⟨s', ?_, hadv⟩
        rw [whileLoop_succ, if_neg]
        rw [decide_eq_true_iff]
        rintro ⟨hlt, -⟩
        omega

/-- The characters `vasprintf` puts before the `NUL`: none for a format whose length is negative as
an `int`. -/
def outputLength (mem : Mem) (args : ℕ → UInt32) (format : List UInt8) : ℕ :=
  if 2 ^ 31 ≤ format.length then 0 else logLength mem args format none 0

theorem vasprintf_stores (args : ℕ → UInt32) (h : StringAt mem fmt xs) (data : UInt32 → UInt8) :
    ∃ b, vasprintf mem data fmt args = some b ∧
      (∀ k, k ∈ b.stores ↔ ∃ i ≤ outputLength mem args xs, k = UInt32.ofNat i) ∧
      b.data (UInt32.ofNat (outputLength mem args xs)) = 0 := by
  have hlt := h.length_lt
  have hnat : (UInt32.ofNat xs.length).toNat = xs.length := toNat_ofNat_of_lt hlt
  have hloop : ∃ s', whileLoop (fun s : LogState =>
        (s.i : ℤ) < (UInt32.ofNat xs.length).toInt32.toInt ∧ mem (fmt + UInt32.ofNat s.i) ≠ 0)
      (logBody mem fmt args) (2 ^ 32) ⟨0, 0, ⟨data, 0, []⟩⟩ = some s' ∧
      Advanced ⟨data, 0, []⟩ s'.out (outputLength mem args xs) := by
    rw [toInt_toInt32, hnat, outputLength]
    by_cases hlong : 2 ^ 31 ≤ xs.length
    · rw [if_neg (by omega), if_pos hlong]
      refine ⟨⟨0, 0, ⟨data, 0, []⟩⟩, ?_, Advanced.refl _⟩
      rw [show 2 ^ 32 = (2 ^ 32 - 1) + 1 by decide, whileLoop_succ, if_neg]
      rw [decide_eq_true_iff]
      rintro ⟨hneg, -⟩
      have hneg' : ((0 : ℕ) : ℤ) < xs.length - 2 ^ 32 := hneg
      omega
    · rw [if_pos (by omega), if_neg hlong]
      refine logLoop_advanced _ xs.length xs ⟨0, 0, ⟨data, 0, []⟩⟩ _ le_rfl ?_ ?_ hlt
      · show StringAt mem (fmt + 0) xs
        rw [UInt32.add_zero]
        exact h
      · show ((0 + xs.length : ℕ) : ℤ) = _
        rw [Nat.zero_add]
  obtain ⟨s', hs', hadv⟩ := hloop
  have hptr : s'.out.ptr = UInt32.ofNat (outputLength mem args xs) := by
    rw [hadv.ptr]
    exact UInt32.zero_add _
  refine ⟨s'.out.store s'.out.ptr 0, ?_, fun k => ?_, ?_⟩
  · rw [vasprintf, strlen_eq h]
    show (whileLoop _ _ _ _).bind _ = _
    rw [hs', Option.bind_some]
  · show k ∈ s'.out.stores ++ [s'.out.ptr] ↔ _
    rw [List.mem_append, List.mem_singleton, hadv.stores, hptr]
    constructor
    · rintro ((hk | ⟨i, hi, rfl⟩) | rfl)
      · exact absurd hk List.not_mem_nil
      · exact ⟨i, hi.le, UInt32.zero_add _⟩
      · exact ⟨_, le_rfl, rfl⟩
    · rintro ⟨i, hi, rfl⟩
      rcases Nat.lt_or_eq_of_le hi with hi | rfl
      · exact Or.inl (Or.inr ⟨i, hi, (UInt32.zero_add _).symm⟩)
      · exact Or.inr rfl
  · show Function.update s'.out.data s'.out.ptr 0 _ = 0
    rw [hptr, Function.update_self]

/-- Everything is stored in the 1024 bytes of `buffer`, and a `NUL` lies there. -/
def InsideBuffer (r : Option LogBuffer) : Prop :=
  ∃ b, r = some b ∧ (∀ k ∈ b.stores, k.toNat < 1024) ∧ ∃ k, k.toNat < 1024 ∧ b.data k = 0

/-- **`vasprintf` stays inside the buffer** of `log_print`, and ends what it stores there, exactly for
the formats and arguments that come to at most 1023 characters, and for formats too long to be
looked at. -/
theorem vasprintf_inside_iff (h : StringAt mem fmt xs) (args : ℕ → UInt32)
    (data : UInt32 → UInt8) :
    InsideBuffer (vasprintf mem data fmt args) ↔
      2 ^ 31 ≤ xs.length ∨ logLength mem args xs none 0 ≤ 1023 := by
  obtain ⟨b, hb, hstores, hend⟩ := vasprintf_stores args h data
  have hiff : outputLength mem args xs ≤ 1023 ↔
      2 ^ 31 ≤ xs.length ∨ logLength mem args xs none 0 ≤ 1023 := by
    unfold outputLength
    split_ifs
    · exact iff_of_true (by omega) (Or.inl ‹_›)
    · exact (or_iff_right ‹_›).symm
  rw [← hiff]
  constructor
  · rintro ⟨b', hb', hinside, _⟩
    obtain rfl := Option.some.inj (hb.symm.trans hb')
    by_contra hlong
    have := hinside (UInt32.ofNat 1024) ((hstores _).2 ⟨1024, by omega, rfl⟩)
    exact absurd this (by decide)
  · intro hle
    refine ⟨b, hb, fun k hk => ?_, UInt32.ofNat (outputLength mem args xs), ?_, hend⟩
    · obtain ⟨i, hi, rfl⟩ := (hstores k).1 hk
      rw [toNat_ofNat_of_lt (by omega)]
      omega
    · rw [toNat_ofNat_of_lt (by omega)]
      omega

end Run

/-- The format "%2000d" at 0x100. -/
def widthFormat : Mem := fun x => [37, 50, 48, 48, 48, 100].getD (x - 0x100).toNat 0

theorem widthFormat_stringAt : StringAt widthFormat 0x100 [37, 50, 48, 48, 48, 100] := by
  simp only [StringAt]
  decide

/-- The format "irq %3d: %s" at 0x100, and "kbd" at 0x200. -/
def lineFormat : Mem := fun x =>
  if x < 0x200 then [105, 114, 113, 32, 37, 51, 100, 58, 32, 37, 115].getD (x - 0x100).toNat 0
  else [107, 98, 100].getD (x - 0x200).toNat 0

theorem lineFormat_stringAt :
    StringAt lineFormat 0x100 [105, 114, 113, 32, 37, 51, 100, 58, 32, 37, 115] := by
  simp only [StringAt]
  decide

theorem vasprintf_inside_line : InsideBuffer
    (vasprintf lineFormat (fun _ => 1) 0x100 fun i => if i = 0 then 42 else 0x200) :=
  (vasprintf_inside_iff lineFormat_stringAt _ _).2 (Or.inr (by decide))

/-- Two thousand zeros are stored, from the buffer on. -/
theorem vasprintf_overflow :
    StringAt widthFormat 0x100 [37, 50, 48, 48, 48, 100] ∧
      ¬ InsideBuffer (vasprintf widthFormat (fun _ => 0) 0x100 fun _ => 0) := by
  refine ⟨widthFormat_stringAt, ?_⟩
  obtain ⟨b, hb, hstores, _⟩ :=
    vasprintf_stores (fun _ => 0) widthFormat_stringAt fun _ => 0
  rintro ⟨b', hb', hinside, _⟩
  obtain rfl := Option.some.inj (hb.symm.trans hb')
  have hlong : 1024 ≤ outputLength widthFormat (fun _ => 0) [37, 50, 48, 48, 48, 100] := by decide
  have := hinside (UInt32.ofNat 1024) ((hstores _).2 ⟨1024, hlong, rfl⟩)
  exact absurd this (by decide)

end CometOS
