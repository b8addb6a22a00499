import CometOS.Lib.ByteCopy

/-!
# Blocks of memory (`libc/string/memcpy.c`, `memcmp.c`)

`memcpy` copies up, whatever the two blocks are to each other; `memcmp` orders blocks as the lists of
their bytes are ordered, and looks no further than the first difference.
-/

namespace CometOS

open ByteCopy ByteMemory Loop Word32

/-! ### The code -/

def memcpy (dst src size : UInt32) (mem : Mem) : Mem := copyUp dst src size.toNat mem

/-- `memcmp` from byte `i` on, with so many still to go. -/
def memcmpFrom (mem : Mem) (a b : UInt32) (i : ℕ) : ℕ → ℤ
  | 0 => 0
  | n + 1 =>
    if mem (a + UInt32.ofNat i) < mem (b + UInt32.ofNat i) then -1
    else if mem (b + UInt32.ofNat i) < mem (a + UInt32.ofNat i) then 1
    else memcmpFrom mem a b (i + 1) n

def memcmp (mem : Mem) (a b size : UInt32) : ℤ := memcmpFrom mem a b 0 size.toNat

/-! ### What it does -/

/-- The `n` bytes at `a`, from byte `i` on. -/
def bytesFrom (mem : Mem) (a : UInt32) (i n : ℕ) : List UInt8 :=
  (List.range' i n).map fun k => mem (a + UInt32.ofNat k)

section Memory

variable {mem : Mem} {a b : UInt32}

/-- **`memcpy`, exactly.**  Of any two blocks, wrapping and overlapping ones included: byte `i` at the
destination is byte `i` of the source, counted modulo the distance if the destination lies that far into
the source; and nothing else changes. -/
theorem memcpy_bytes (mem : Mem) (dst src size : UInt32) :
    (∀ i < size.toNat, memcpy dst src size mem (dst + UInt32.ofNat i) =
      mem (src + UInt32.ofNat (i % (dst - src).toNat))) ∧
    ∀ x, (∀ i < size.toNat, x ≠ dst + UInt32.ofNat i) → memcpy dst src size mem x = mem x := by
  have h : Repeats mem (memcpy dst src size mem) dst src size.toNat :=
    copyUp_repeats size.toNat_lt.le mem
  exact ⟨h.bytes, h.frame⟩

theorem bytesFrom_succ (mem : Mem) (a : UInt32) (i n : ℕ) :
    bytesFrom mem a i (n + 1) = mem (a + UInt32.ofNat i) :: bytesFrom mem a (i + 1) n := rfl

theorem memcmpFrom_cases (n i : ℕ) :
    (memcmpFrom mem a b i n = -1 ∧ bytesFrom mem a i n < bytesFrom mem b i n) ∨
    (memcmpFrom mem a b i n = 0 ∧ bytesFrom mem a i n = bytesFrom mem b i n) ∨
    (memcmpFrom mem a b i n = 1 ∧ bytesFrom mem b i n < bytesFrom mem a i n) := by
  induction n generalizing i with
  | zero => exact Or.inr (Or.inl ⟨rfl, rfl⟩)
  | succ n ih =>
    rw [memcmpFrom, bytesFrom_succ, bytesFrom_succ]
    by_cases hlt : mem (a + UInt32.ofNat i) < mem (b + UInt32.ofNat i)
    · rw [if_pos hlt]
      exact Or.inl ⟨rfl, List.cons_lt_cons_iff.2 (Or.inl hlt)⟩
    · by_cases hgt : mem (b + UInt32.ofNat i) < mem (a + UInt32.ofNat i)
      · rw [if_neg hlt, if_pos hgt]
        exact Or.inr (Or.inr ⟨rfl, List.cons_lt_cons_iff.2 (Or.inl hgt)⟩)
      · have hsame : mem (a + UInt32.ofNat i) = mem (b + UInt32.ofNat i) :=
          UInt8.le_antisymm (UInt8.not_lt.1 hgt) (UInt8.not_lt.1 hlt)
        rw [if_neg hlt, if_neg hgt, hsame]
        rcases ih (i + 1) with ⟨hv, hl⟩ | ⟨hv, hl⟩ | ⟨hv, hl⟩
        · exact Or.inl ⟨hv, List.cons_lt_cons_iff.2 (Or.inr ⟨rfl, hl⟩)⟩
        · exact Or.inr (Or.inl ⟨hv, congrArg _ hl⟩)
        · exact Or.inr (Or.inr ⟨hv, List.cons_lt_cons_iff.2 (Or.inr ⟨rfl, hl⟩)⟩)

/-- **`memcmp`, exactly**: the lexicographic order of the bytes, taken as unsigned. -/
theorem memcmp_lex (mem : Mem) (a b size : UInt32) :
    (memcmp mem a b size = -1 ∧ bytesFrom mem a 0 size.toNat < bytesFrom mem b 0 size.toNat) ∨
    (memcmp mem a b size = 0 ∧ bytesFrom mem a 0 size.toNat = bytesFrom mem b 0 size.toNat) ∨
    (memcmp mem a b size = 1 ∧ bytesFrom mem b 0 size.toNat < bytesFrom mem a 0 size.toNat) :=
  memcmpFrom_cases size.toNat 0

end Memory

end CometOS
