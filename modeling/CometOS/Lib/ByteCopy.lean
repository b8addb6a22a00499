import CometOS.Lib.ByteMemory
import CometOS.Lib.Loop

/-!
# Copying bytes one at a time

A block of bytes is copied from its low end up or from its high end down.  `Copied` says what either
leaves behind: the part of the destination that has been reached holds what the source held before
the first byte was copied, and nothing else has changed.  It holds as long as no byte is overwritten
before it is read, and only the order of the two blocks decides that.
-/

namespace ByteCopy

open ByteMemory Loop Word32

/-- `dst[i] = src[i]`. -/
def copyByte (dst src : UInt32) (i : ℕ) (m : Mem) : Mem :=
  Function.update m (dst + UInt32.ofNat i) (m (src + UInt32.ofNat i))

/-- The `n` bytes, the first one first. -/
def copyUp (dst src : UInt32) (n : ℕ) (m : Mem) : Mem := forUp (copyByte dst src) 0 n m

/-- The `n` bytes, the last one first. -/
def copyDown (dst src : UInt32) : ℕ → Mem → Mem
  | 0, m => m
  | n + 1, m => copyDown dst src n (copyByte dst src n m)

/-- The bytes from `lo` up to `hi` have been copied. -/
structure Copied (m m' : Mem) (dst src : UInt32) (lo hi : ℕ) : Prop where
  copied : ∀ i, lo ≤ i → i < hi → m' (dst + UInt32.ofNat i) = m (src + UInt32.ofNat i)
  frame : ∀ x, (∀ i, lo ≤ i → i < hi → x ≠ dst + UInt32.ofNat i) → m' x = m x

variable {m m' : Mem} {dst src : UInt32} {n lo hi : ℕ}

theorem add_ofNat_inj {a : UInt32} {i j : ℕ} (hi : i < 2 ^ 32) (hj : j < 2 ^ 32)
    (h : a + UInt32.ofNat i = a + UInt32.ofNat j) : i = j := by
  have hsame : UInt32.ofNat i = UInt32.ofNat j := by grind
  rw [← toNat_ofNat_of_lt hi, ← toNat_ofNat_of_lt hj, hsame]

theorem copied_nil (m : Mem) (dst src : UInt32) (lo : ℕ) : Copied m m dst src lo lo :=
  ⟨fun i hlo hhi => absurd hhi (by omega), fun _ _ => rfl⟩

/-- The next byte up, if it has not been overwritten. -/
theorem Copied.up (h : Copied m m' dst src lo hi) (hle : lo ≤ hi) (hlt : hi < 2 ^ 32)
    (hread : ∀ j, lo ≤ j → j < hi → src + UInt32.ofNat hi ≠ dst + UInt32.ofNat j) :
    Copied m (copyByte dst src hi m') dst src lo (hi + 1) := by
  refine ⟨fun i hlo hhi => ?_, fun x hx => ?_⟩
  · by_cases hi' : i = hi
    · subst hi'
      rw [copyByte, Function.update_self]
      exact h.frame _ hread
    · rw [copyByte, Function.update_of_ne fun he => hi' (add_ofNat_inj (by omega) hlt he)]
      exact h.copied i hlo (by omega)
  · rw [copyByte, Function.update_of_ne (hx hi hle (by omega))]
    exact h.frame x fun i hlo hhi => hx i hlo (by omega)

/-- The next byte down, if it has not been overwritten. -/
theorem Copied.down (h : Copied m m' dst src (lo + 1) hi) (hle : lo < hi) (hlt : hi ≤ 2 ^ 32)
    (hread : ∀ j, lo < j → j < hi → src + UInt32.ofNat lo ≠ dst + UInt32.ofNat j) :
    Copied m (copyByte dst src lo m') dst src lo hi := by
  refine ⟨fun i hlo hhi => ?_, fun x hx => ?_⟩
  · by_cases hi' : i = lo
    · subst hi'
      rw [copyByte, Function.update_self]
      exact h.frame _ hread
    · rw [copyByte, Function.update_of_ne fun he => hi' (add_ofNat_inj (by omega) (by omega) he)]
      exact h.copied i (by omega) hhi
  · rw [copyByte, Function.update_of_ne (hx lo le_rfl hle)]
    exact h.frame x fun i hlo hhi => hx i (by omega) hhi

/-- **Copying up** is right where no byte of the source lies on a byte written before it is read. -/
theorem copyUp_copied (hn : n ≤ 2 ^ 32)
    (hread : ∀ i j, j < i → i < n → src + UInt32.ofNat i ≠ dst + UInt32.ofNat j) (m : Mem) :
    Copied m (copyUp dst src n m) dst src 0 n := by
  have hall := @forUp_inv Mem (fun k m' => k ≤ n ∧ Copied m m' dst src 0 k) (copyByte dst src)
    n 0 m ⟨Nat.zero_le n, copied_nil m dst src 0⟩ fun i m' _ hi hm' =>
      ⟨by omega, hm'.2.up (Nat.zero_le i) (by omega) fun j _ hj => hread i j hj (by omega)⟩
  rw [Nat.zero_add] at hall
  exact hall.2

/-- **Copying down** likewise, with the order turned round. -/
theorem copyDown_copied (hn : n ≤ 2 ^ 32)
    (hread : ∀ i j, i < j → j < n → src + UInt32.ofNat i ≠ dst + UInt32.ofNat j) (m : Mem) :
    Copied m (copyDown dst src n m) dst src 0 n := by
  -- what is left to do is below `k`, and the bytes from `k` on are done
  suffices hall : ∀ k ≤ n, ∀ m', Copied m m' dst src k n →
      Copied m (copyDown dst src k m') dst src 0 n from
    hall n le_rfl m (copied_nil m dst src n)
  intro k
  induction k with
  | zero => intro _ m' h; exact h
  | succ k ih =>
    intro hk m' h
    exact ih (by omega) _ (h.down (by omega) hn fun j hj hjn => hread k j hj hjn)

/-- Blocks that are apart are copied in either order. -/
theorem copyUp_of_apart (h : Apart dst n src n) (hn : n ≤ 2 ^ 32) (m : Mem) :
    Copied m (copyUp dst src n m) dst src 0 n :=
  copyUp_copied hn (fun _ _ hj hi => (h.ne (hj.trans hi) hi).symm) m

/-- The first `k` bytes have been copied up, each source byte as it was when its turn came: where the
destination starts `d` bytes into the source, the first `d` bytes are repeated. -/
structure Repeats (m m' : Mem) (dst src : UInt32) (k : ℕ) : Prop where
  bytes : ∀ i < k, m' (dst + UInt32.ofNat i) = m (src + UInt32.ofNat (i % (dst - src).toNat))
  frame : ∀ x, (∀ i < k, x ≠ dst + UInt32.ofNat i) → m' x = m x

/-- The byte that the next turn reads. -/
theorem Repeats.read {k : ℕ} (h : Repeats m m' dst src k) (hk : k < 2 ^ 32) :
    m' (src + UInt32.ofNat k) = m (src + UInt32.ofNat (k % (dst - src).toNat)) := by
  have hd := (dst - src).toNat_lt
  by_cases hlt : 0 < (dst - src).toNat ∧ (dst - src).toNat ≤ k
  · -- it has been written, `d` turns before
    have hplace : src + UInt32.ofNat k = dst + UInt32.ofNat (k - (dst - src).toNat) := by
      have hsum : UInt32.ofNat k = (dst - src) + UInt32.ofNat (k - (dst - src).toNat) := by
        apply eq_of_toNat
        rw [toNat_add_of_lt, toNat_ofNat_of_lt hk, toNat_ofNat_of_lt (by omega)]
        · omega
        · rw [toNat_ofNat_of_lt (by omega)]
          omega
      rw [hsum]
      grind
    rw [hplace, h.bytes _ (by omega), ← Nat.mod_eq_sub_mod hlt.2]
  · have hmod : k % (dst - src).toNat = k := by
      rcases Nat.eq_zero_or_pos (dst - src).toNat with h0 | hpos
      · rw [h0, Nat.mod_zero]
      · exact Nat.mod_eq_of_lt (by omega)
    rw [hmod]
    refine h.frame _ fun i hi he => ?_
    have hsum : UInt32.ofNat k = (dst - src) + UInt32.ofNat i := by grind
    have hval := congrArg UInt32.toNat hsum
    rw [toNat_ofNat_of_lt hk, UInt32.toNat_add, toNat_ofNat_of_lt (by omega)] at hval
    omega

/-- **Copying up over anything.** -/
theorem copyUp_repeats (hn : n ≤ 2 ^ 32) (m : Mem) : Repeats m (copyUp dst src n m) dst src n := by
  have hall := @forUp_inv Mem (fun k m' => Repeats m m' dst src k) (copyByte dst src) n 0 m
    ⟨fun i hi => absurd hi (Nat.not_lt_zero i), fun _ _ => rfl⟩ fun k m' _ hk h => by
      refine ⟨fun i hi => ?_, fun x hx => ?_⟩
      · by_cases hik : i = k
        · subst hik
          rw [copyByte, Function.update_self]
          exact h.read (by omega)
        · rw [copyByte, Function.update_of_ne fun he => hik (add_ofNat_inj (by omega) (by omega) he)]
          exact h.bytes i (by omega)
      · rw [copyByte, Function.update_of_ne (hx k (Nat.lt_succ_self k))]
        exact h.frame x fun i hi => hx i (by omega)
  rw [Nat.zero_add] at hall
  exact hall

/-- `((uint32_t *)dst)[i] = ((uint32_t *)src)[i]`. -/
def copyWord (dst src : UInt32) (i : ℕ) (m : Mem) : Mem :=
  write32 m (dst + 4 * UInt32.ofNat i) (read32 m (src + 4 * UInt32.ofNat i))

/-- **The next word up** is the next four bytes. -/
theorem Copied.word {i : ℕ} (h : Copied m m' dst src 0 (4 * i)) (hap : Apart dst n src n)
    (hi : 4 * i + 4 ≤ n) (hn : n ≤ 2 ^ 32) :
    Copied m (copyWord dst src i m') dst src 0 (4 * (i + 1)) := by
  have hplace : ∀ (a : UInt32) (j : ℕ), a + UInt32.ofNat (4 * i + j) =
      a + 4 * UInt32.ofNat i + UInt32.ofNat j := by
    intro a j
    rw [UInt32.add_assoc]
    congr 1
    rw [UInt32.ofNat_add, UInt32.ofNat_mul]
    rfl
  have hfar : ∀ x, (∀ j < 4, x ≠ dst + UInt32.ofNat (4 * i + j)) →
      copyWord dst src i m' x = m' x := by
    intro x hx
    apply write32_of_far
    by_contra hnear
    refine hx (x - (dst + 4 * UInt32.ofNat i)).toNat (by omega) ?_
    rw [hplace, ofNat_toNat]
    grind
  refine ⟨fun j _ hj => ?_, fun x hx => ?_⟩
  · by_cases hlt : j < 4 * i
    · rw [hfar _ fun k hk he => absurd (add_ofNat_inj (by omega) (by omega) he) (by omega)]
      exact h.copied j (Nat.zero_le j) hlt
    · obtain ⟨k, rfl⟩ := Nat.exists_eq_add_of_le (Nat.not_lt.1 hlt)
      have hk : (UInt32.ofNat k).toNat < 4 := by
        rw [toNat_ofNat_of_lt (by omega)]
        omega
      rw [hplace, copyWord, write32_read32 _ _ _ _ hk, ← hplace]
      exact h.frame _ fun j' _ hj' => (hap.ne (show j' < n by omega) (by omega)).symm
  · rw [hfar x fun j hj => hx _ (Nat.zero_le _) (by omega)]
    exact h.frame x fun j hlo hhi => hx j hlo (by omega)

/-- **Words, then the bytes left over**: blocks that are apart are copied. -/
theorem copyWords_of_apart (h : Apart dst n src n) (hn : n ≤ 2 ^ 32) (m : Mem) :
    Copied m (forUp (copyByte dst src) (4 * (n / 4)) (n % 4)
      (forUp (copyWord dst src) 0 (n / 4) m)) dst src 0 n := by
  have hwords := @forUp_inv Mem (fun k m' => 4 * k ≤ n ∧ Copied m m' dst src 0 (4 * k))
    (copyWord dst src) (n / 4) 0 m ⟨Nat.zero_le n, copied_nil m dst src 0⟩ fun i m' _ hi hm' =>
      ⟨by omega, hm'.2.word h (by omega) hn⟩
  rw [Nat.zero_add] at hwords
  have hbytes := @forUp_inv Mem (fun k m' => k ≤ n ∧ Copied m m' dst src 0 k)
    (copyByte dst src) (n % 4) (4 * (n / 4)) _ hwords fun i m' _ hi hm' =>
      ⟨by omega, hm'.2.up (Nat.zero_le i) (by omega) fun j _ hj =>
        (h.ne (show j < n by omega) (by omega)).symm⟩
  rw [Nat.div_add_mod] at hbytes
  exact hbytes.2

/-- A byte at distance `n` or more past the destination is kept. -/
theorem Copied.of_far (h : Copied m m' dst src 0 n) (hn : n ≤ 2 ^ 32) {x : UInt32}
    (hx : n ≤ (x - dst).toNat) : m' x = m x := by
  refine h.frame x fun i _ hi hxi => ?_
  have hdist : x - dst = UInt32.ofNat i := by grind
  rw [hdist, toNat_ofNat_of_lt (by omega)] at hx
  omega

end ByteCopy
