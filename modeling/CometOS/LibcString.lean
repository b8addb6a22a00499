import CometOS.Ext2Return
import CometOS.Lib.ByteCopy

/-!
# `libc/string`: `strcmp`, `strcpy` and `memmove`

Each works on the one memory.  `none` is a string that does not end in as many bytes as there are
addresses.
-/

namespace CometOS

open ByteCopy ByteMemory CString Reader Word32

variable {mem : Mem} {xs ys : List UInt8}

/-! ### `strcmp` -/

/-- The loop of `strcmp` from `i` on, for at most the given number of tests. -/
def strcmpFrom (mem : Mem) (a b : UInt32) : ℕ → UInt32 → Option ℤ
  | 0, _ => none
  | n + 1, i =>
    if mem (a + i) ≠ 0 ∧ mem (b + i) ≠ 0 then
      if mem (a + i) ≠ mem (b + i) then
        if (mem (a + i) = 0 ∧ mem (b + i) ≠ 0) ∨ (mem (a + i) ≠ 0 ∧ mem (b + i) = 0) then some 1
        else some 0
      else strcmpFrom mem a b n (i + 1)
    else some 0

def strcmp (mem : Mem) (a b : UInt32) : Option ℤ := strcmpFrom mem a b (2 ^ 32) 0

/-- A mismatch ends the loop as the end of a string does. -/
theorem strcmpFrom_of_end {a b i : UInt32} (n : ℕ)
    (h : mem (a + i) = 0 ∨ mem (b + i) = 0 ∨ mem (a + i) ≠ mem (b + i)) :
    strcmpFrom mem a b (n + 1) i = some 0 := by
  rw [strcmpFrom]
  by_cases hboth : mem (a + i) ≠ 0 ∧ mem (b + i) ≠ 0
  · obtain ⟨ha, hb⟩ := hboth
    have hne : mem (a + i) ≠ mem (b + i) := by simpa [ha, hb] using h
    rw [if_pos ⟨ha, hb⟩, if_pos hne, if_neg (by simp [ha, hb])]
  · rw [if_neg hboth]

theorem strcmpFrom_of_not_end {a b i : UInt32} (n : ℕ)
    (h : ¬ (mem (a + i) = 0 ∨ mem (b + i) = 0 ∨ mem (a + i) ≠ mem (b + i))) :
    strcmpFrom mem a b (n + 1) i = strcmpFrom mem a b n (i + 1) := by
  simp only [not_or, not_not] at h
  rw [strcmpFrom, if_pos ⟨h.1, h.2.1⟩, if_neg (not_not.2 h.2.2)]

/-- `initrd_finddir` compares with its reads on record, and gets the same answer. -/
theorem strcmp_record (mem : Mem) (a b : UInt32) : (ReadBy.strcmp a b mem).1 = strcmp mem a b := by
  have hloop : ∀ n i, (Prog.loop (ReadBy.strcmpStep a b) n i mem).1 = strcmpFrom mem a b n i := by
    intro n
    induction n with
    | zero => intro i; rfl
    | succ n ih =>
      intro i
      by_cases hend : mem (a + i) = 0 ∨ mem (b + i) = 0 ∨ mem (a + i) ≠ mem (b + i)
      · rw [(strcmp_turn a b).val_of_end hend, strcmpFrom_of_end n hend]
      · rw [(strcmp_turn a b).val_of_not_end hend, strcmpFrom_of_not_end n hend, ih]
  exact hloop (2 ^ 32) 0

/-- `strcmp` answers 0, whatever the strings are: the branch that would answer 1 is entered with two
characters in hand, and looks for a string that has ended. -/
theorem strcmp_eq {b : UInt32} (h : StringAt mem b ys) (a : UInt32) : strcmp mem a b = some 0 := by
  rw [← strcmp_record, strcmp_val h]

/-- **`strcmp` tells the strings right** exactly when there is nothing to tell: they are equal. -/
theorem strcmp_right_iff {a b : UInt32} (_ : StringAt mem a xs) (hb : StringAt mem b ys) :
    (strcmp mem a b = some 0 ↔ xs = ys) ↔ xs = ys := by
  rw [iff_true_left (strcmp_eq hb a)]

/-- The strings "a" at 0x100 and "b" at 0x200. -/
def oneLetterEach : Mem := fun x => if x = 0x100 then 97 else if x = 0x200 then 98 else 0

/-- The string "abc" twice, at 0x100 and at 0x200. -/
def twiceAbc : Mem := fun x => [97, 98, 99].getD (x &&& 0xFF).toNat 0

theorem twiceAbc_stringAt :
    StringAt twiceAbc 0x100 [97, 98, 99] ∧ StringAt twiceAbc 0x200 [97, 98, 99] := by
  simp only [StringAt]
  decide

theorem strcmp_right_same : strcmp twiceAbc 0x100 0x200 = some 0 ↔ [(97 : UInt8), 98, 99] = [97, 98, 99] :=
  (strcmp_right_iff twiceAbc_stringAt.1 twiceAbc_stringAt.2).2 rfl

theorem strcmp_different :
    StringAt oneLetterEach 0x100 [97] ∧ StringAt oneLetterEach 0x200 [98] ∧
      ¬ (strcmp oneLetterEach 0x100 0x200 = some 0 ↔ [(97 : UInt8)] = [98]) := by
  have hb : StringAt oneLetterEach 0x200 [98] := stringAt_single.2 (by decide)
  refine ⟨stringAt_single.2 (by decide), hb, ?_⟩
  rw [iff_true_left (strcmp_eq hb _)]
  decide

/-! ### `strcpy` -/

/-- `strcpy`: as many bytes as `strlen` counts.  `size` is an `int`, which the test `i < size` turns
back into the `size_t` it was. -/
def strcpy (dst src : UInt32) (mem : Mem) : Option Mem :=
  (strlen mem src).map fun size => copyUp dst src size.toNat mem

theorem strcpy_eq {src : UInt32} (h : StringAt mem src xs) (dst : UInt32) :
    strcpy dst src mem = some (copyUp dst src xs.length mem) := by
  rw [strcpy, strlen_eq h, Option.map_some, toNat_ofNat_of_lt h.length_lt]

/-- The bytes of the string arrive, and the byte behind them stays what it was. -/
theorem strcpy_copied {dst src : UInt32} (h : StringAt mem src xs)
    (hapart : Apart dst (xs.length + 1) src (xs.length + 1)) :
    Copied mem (copyUp dst src xs.length mem) dst src 0 xs.length :=
  copyUp_of_apart (hapart.mono (Nat.le_succ _) (Nat.le_succ _)) h.length_lt.le mem

/-- What `strcpy` is for: the string at `dst` is the one at `src`, and nothing behind it changes. -/
def CopiesString (mem : Mem) (dst src : UInt32) (xs : List UInt8) : Prop :=
  ∃ mem', strcpy dst src mem = some mem' ∧ StringAt mem' dst xs ∧
    strlen mem' dst = strlen mem src ∧
    ∀ x : UInt32, xs.length + 1 ≤ (x - dst).toNat → mem' x = mem x

/-- **`strcpy` copies the string** exactly onto a place where a 0 already lies behind it. -/
theorem copiesString_iff {dst src : UInt32} (h : StringAt mem src xs)
    (hapart : Apart dst (xs.length + 1) src (xs.length + 1)) :
    CopiesString mem dst src xs ↔ mem (dst + UInt32.ofNat xs.length) = 0 := by
  have hlen := h.length_lt
  have hcopy := strcpy_copied h hapart
  have hbehind : copyUp dst src xs.length mem (dst + UInt32.ofNat xs.length) =
      mem (dst + UInt32.ofNat xs.length) :=
    hcopy.frame _ fun i _ hi he => by
      have := add_ofNat_inj hlen (by omega) he
      omega
  constructor
  · rintro ⟨mem', hmem', hstring, _, _⟩
    rw [strcpy_eq h] at hmem'
    obtain rfl := Option.some.inj hmem'
    rw [← hbehind]
    exact hstring.terminator
  · intro hzero
    have hstring : StringAt (copyUp dst src xs.length mem) dst xs := by
      apply stringAt_of_bytes
      · intro i hi
        rw [hcopy.copied i (Nat.zero_le i) hi]
        exact h.byte hi
      · rw [hbehind]
        exact hzero
    refine ⟨_, strcpy_eq h dst, hstring, ?_, fun x hx => hcopy.of_far hlen.le (by omega)⟩
    rw [strlen_eq hstring, strlen_eq h]

/-- To a page of zeros. -/
theorem copiesString_fresh : CopiesString twiceAbc 0x380 0x100 [97, 98, 99] :=
  (copiesString_iff twiceAbc_stringAt.1 (by decide)).2 (by decide)

/-- The string "a" at 0x100, and "xy" left behind at 0x200. -/
def recycledBytes : Mem := fun x =>
  if x = 0x100 then 97 else if x = 0x200 then 120 else if x = 0x201 then 121 else 0

/-- The copy reads "ay". -/
theorem strcpy_recycled :
    StringAt recycledBytes 0x100 [97] ∧ Apart (0x200 : UInt32) 2 0x100 2 ∧
      ¬ CopiesString recycledBytes 0x200 0x100 [97] := by
  have hsrc : StringAt recycledBytes 0x100 [97] := stringAt_single.2 (by decide)
  refine ⟨hsrc, by decide, ?_⟩
  rintro ⟨mem', hmem', hstring, _, _⟩
  have hsame : strcpy 0x200 0x100 recycledBytes =
      some (copyUp 0x200 0x100 1 recycledBytes) := strcpy_eq hsrc 0x200
  rw [hsame] at hmem'
  obtain rfl := Option.some.inj hmem'
  have hend := (stringAt_single.1 hstring).2.2
  revert hend
  decide

/-! ### `memmove` -/

def memmove (dst src size : UInt32) (mem : Mem) : Mem :=
  if dst < src then copyUp dst src size.toNat mem else copyDown dst src size.toNat mem

/-- A byte of a block that does not wrap. -/
theorem toNat_add_ofNat {a size : UInt32} (h : a.toNat + size.toNat ≤ 2 ^ 32) {i : ℕ}
    (hi : i < size.toNat) : (a + UInt32.ofNat i).toNat = a.toNat + i := by
  have hi' : (UInt32.ofNat i).toNat = i := toNat_ofNat_of_lt (hi.trans size.toNat_lt)
  rw [toNat_add_of_lt (by omega), hi']

theorem memmove_copied {dst src size : UInt32} (hdst : dst.toNat + size.toNat ≤ 2 ^ 32)
    (hsrc : src.toNat + size.toNat ≤ 2 ^ 32) (mem : Mem) :
    Copied mem (memmove dst src size mem) dst src 0 size.toNat := by
  have hsize := size.toNat_lt.le
  unfold memmove
  by_cases hlt : dst < src
  · rw [if_pos hlt]
    rw [UInt32.lt_iff_toNat_lt] at hlt
    -- a source byte lies above every byte written before it is read
    refine copyUp_copied hsize (fun i j hj hi he => ?_) mem
    have he' := congrArg UInt32.toNat he
    rw [toNat_add_ofNat hsrc hi, toNat_add_ofNat hdst (hj.trans hi)] at he'
    omega
  · rw [if_neg hlt]
    rw [UInt32.lt_iff_toNat_lt] at hlt
    refine copyDown_copied hsize (fun i j hj hi he => ?_) mem
    have he' := congrArg UInt32.toNat he
    rw [toNat_add_ofNat hsrc (hj.trans hi), toNat_add_ofNat hdst hi] at he'
    omega

/-- **`memmove` moves**: the bytes that were at `src` are at `dst`, however the two blocks overlap,
and everything outside the block at `dst` is as before. -/
theorem memmove_moves (mem : Mem) {dst src size : UInt32}
    (hdst : dst.toNat + size.toNat ≤ 2 ^ 32) (hsrc : src.toNat + size.toNat ≤ 2 ^ 32) :
    (∀ i < size.toNat,
      memmove dst src size mem (dst + UInt32.ofNat i) = mem (src + UInt32.ofNat i)) ∧
      ∀ x : UInt32, (x.toNat < dst.toNat ∨ dst.toNat + size.toNat ≤ x.toNat) →
        memmove dst src size mem x = mem x := by
  have hmoved := memmove_copied hdst hsrc mem
  refine ⟨fun i hi => hmoved.copied i (Nat.zero_le i) hi, fun x hx => ?_⟩
  exact hmoved.of_far size.toNat_lt.le (far_of_outside hx hdst)

/-- Two overlapping blocks, the destination one byte up. -/
theorem memmove_overlapping :
    (∀ i < (2 : UInt32).toNat,
      memmove 0x201 0x200 2 recycledBytes (0x201 + UInt32.ofNat i) =
        recycledBytes (0x200 + UInt32.ofNat i)) ∧
      ∀ x : UInt32, (x.toNat < (0x201 : UInt32).toNat ∨
          (0x201 : UInt32).toNat + (2 : UInt32).toNat ≤ x.toNat) →
        memmove 0x201 0x200 2 recycledBytes x = recycledBytes x :=
  memmove_moves recycledBytes (by decide) (by decide)

end CometOS
