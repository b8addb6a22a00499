import CometOS.PrintfPieces

/-!
# What `printf` returns

`written` counts the characters of the format that are printed, and nothing that a conversion prints.
-/

namespace CometOS

open ByteMemory CString Loop Word32

/-- How many characters of the format are printed. -/
def charsLength (ps : List Piece) : ℕ := (ps.map fun p => p.chars.length).sum

/-- No piece prints anything but its characters: each conversion is a `%s`, of the empty string. -/
def OnlyChars (mem : Mem) : List UInt32 → List Piece → Prop
  | _, [] => True
  | parameters, p :: ps => p.OnlyChars mem parameters ∧ OnlyChars mem (parameters.drop p.words) ps

section Count

variable {mem : Mem} {format : UInt32} {xs : List UInt8} {parameters : List UInt32} {r : PrintfState}

theorem charsLength_cons (p : Piece) (ps : List Piece) :
    charsLength (p :: ps) = p.chars.length + charsLength ps := by
  rw [charsLength, List.map_cons, List.sum_cons, charsLength]

/-- What the loop has counted and printed when it is left, with `uncounted` the characters that have been
printed by conversions. -/
theorem printf_loop_count : ∀ (fuel : ℕ) (xs : List UInt8) (s : PrintfState), StringAt mem s.format xs →
    whileLoop (fun s : PrintfState => mem s.format ≠ 0) (printfBody mem) fuel s = some r →
    ∃ uncounted, r.written = s.written + UInt32.ofNat (charsLength (piecesFrom s.rejectedBadSpecifier 0 xs)) ∧
      r.out.length = s.out.length + charsLength (piecesFrom s.rejectedBadSpecifier 0 xs) + uncounted ∧
      (uncounted = 0 ↔ OnlyChars mem s.parameters (piecesFrom s.rejectedBadSpecifier 0 xs)) := by
  intro fuel
  induction fuel with
  | zero => intro xs s _ hr; cases hr
  | succ fuel ih =>
    intro xs s h hr
    rw [whileLoop_succ] at hr
    cases xs with
    | nil =>
      have hend : mem s.format = 0 := h
      rw [if_neg (by simp [hend])] at hr
      obtain rfl := Option.some.inj hr
      exact ⟨0, (UInt32.add_zero _).symm, rfl, iff_of_true rfl trivial⟩
    | cons x xs =>
      have hne : mem s.format ≠ 0 := by
        rw [h.1]
        exact h.2.1
      rw [if_pos (decide_eq_true hne)] at hr
      obtain ⟨⟨piece, k⟩, hp⟩ : ∃ p, firstPiece s.rejectedBadSpecifier x xs = p := ⟨_, rfl⟩
      have hk := firstPiece_le s.rejectedBadSpecifier x xs
      rw [hp] at hk
      obtain ⟨hfew, henough⟩ := printfBody_piece h hp
      rw [piecesFrom_cons _ _ hp]
      by_cases hwords : piece.words ≤ s.parameters.length
      · obtain ⟨printed, hbody, honly⟩ := henough hwords
        rw [hbody, Option.bind_some] at hr
        obtain ⟨uncounted, hwritten, hout, hiff⟩ := ih (xs.drop k) _ (stringAt_drop h hk) hr
        simp only at hwritten hout hiff
        rw [List.length_append, List.length_append] at hout
        rw [charsLength_cons]
        refine ⟨printed.length + uncounted, ?_, by omega, ?_⟩
        · rw [hwritten, UInt32.ofNat_add, UInt32.add_assoc]
        · rw [Nat.add_eq_zero_iff, List.length_eq_zero_iff, honly, hiff]
          rfl
      · rw [hfew (Nat.lt_of_not_le hwords)] at hr
        cases hr

theorem printf_count (h : StringAt mem format xs) (hr : printf mem format parameters = some r) :
    ∃ uncounted, r.written = UInt32.ofNat (charsLength (pieces xs)) ∧
      r.out.length = charsLength (pieces xs) + uncounted ∧
      (uncounted = 0 ↔ OnlyChars mem parameters (pieces xs)) := by
  obtain ⟨uncounted, hwritten, hout, hiff⟩ := printf_loop_count (2 ^ 32) xs
    { format, parameters, written := 0, rejectedBadSpecifier := false, out := [] } h hr
  refine ⟨uncounted, ?_, ?_, hiff⟩
  · rw [hwritten, UInt32.zero_add]
    rfl
  · rw [hout, List.length_nil, Nat.zero_add]
    rfl

/-- **The value of `printf`**: it is the number of characters printed exactly if no conversion has
printed one, and the characters of the format that are printed are fewer than 2^31. -/
theorem printf_written_iff (h : StringAt mem format xs) (hr : printf mem format parameters = some r) :
    r.written.toInt32.toInt = r.out.length ↔
      OnlyChars mem parameters (pieces xs) ∧ charsLength (pieces xs) < 2 ^ 31 := by
  obtain ⟨uncounted, hwritten, hout, honly⟩ := printf_count h hr
  have hcount : r.written.toNat = charsLength (pieces xs) % 2 ^ 32 := by
    rw [hwritten, UInt32.toNat_ofNat']
  rw [← honly, hout, toInt_toInt32, hcount]
  split
  · omega
  · omega

/-- `a%s%%`, with the empty string at 6. -/
def emptyString : Mem := fun a => [97, 37, 115, 37, 37, 0, 0].getD a.toNat 0

theorem printf_written_empty : ∃ r, printf emptyString 0 [6] = some r ∧
    r.written.toInt32.toInt = r.out.length := by
  have h : StringAt emptyString 0 [97, 37, 115, 37, 37] := by
    simp only [StringAt]
    decide
  obtain ⟨r, hr⟩ : ∃ r, printf emptyString 0 [6] = some r := printf_returns h (by decide)
  refine ⟨r, hr, (printf_written_iff h hr).2 ⟨?_, by decide⟩⟩
  exact ⟨trivial, ⟨rfl, rfl⟩, trivial, trivial⟩

/-- **A digit is not counted**: `%d` prints one, and 0 is returned. -/
theorem printf_written_digit : ¬ ∀ (mem : Mem) (format : UInt32) (xs : List UInt8)
    (parameters : List UInt32) (r : PrintfState), StringAt mem format xs →
    printf mem format parameters = some r → r.written.toInt32.toInt = r.out.length := by
  intro h
  have hformat : StringAt (fun a => [37, 100, 0].getD a.toNat 0) 0 [37, 100] := by
    simp only [StringAt]
    decide
  obtain ⟨r, hr⟩ : ∃ r, printf (fun a => [37, 100, 0].getD a.toNat 0) 0 [5] = some r :=
    printf_returns hformat (by decide)
  obtain ⟨uncounted, hwritten, hout, hiff⟩ := printf_count hformat hr
  have hne : uncounted ≠ 0 := fun h0 => absurd (hiff.1 h0).1.1 (by decide)
  have hzero : charsLength (pieces [37, 100]) = 0 := by decide
  rw [hzero] at hwritten hout
  have heq := h _ _ _ _ r hformat hr
  rw [hwritten, hout, Nat.zero_add] at heq
  exact hne (Int.ofNat_inj.1 heq).symm

end Count

end CometOS
