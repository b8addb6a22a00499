import CometOS.Lib.Word

/-!
# Byte-addressed memory with a 32-bit address space

`Mem` gives every 32-bit address a byte.  Words of two and four bytes are read and written little
endian; address arithmetic wraps, as the machine's does.  Whether two accesses can touch each other
is the predicate `Apart`, on the distances between them around the address space, so that the frame
lemmas need no side condition about wrapping.
-/

namespace ByteMemory

open Word32

/-- The contents of memory: one byte for each address. -/
abbrev Mem := UInt32 → UInt8

/-- The two-byte little-endian word at `a`. -/
def read16 (m : Mem) (a : UInt32) : UInt16 :=
  UInt16.ofNat ((m a).toNat + 0x100 * (m (a + 1)).toNat)

/-- The four-byte little-endian word at `a`. -/
def read32 (m : Mem) (a : UInt32) : UInt32 :=
  UInt32.ofNat ((m a).toNat + 0x100 * (m (a + 1)).toNat + 0x10000 * (m (a + 2)).toNat +
    0x1000000 * (m (a + 3)).toNat)

def write16 (m : Mem) (a : UInt32) (v : UInt16) : Mem := fun x =>
  if x = a then UInt8.ofNat v.toNat
  else if x = a + 1 then UInt8.ofNat (v.toNat / 0x100)
  else m x

def write32 (m : Mem) (a v : UInt32) : Mem := fun x =>
  if x = a then UInt8.ofNat v.toNat
  else if x = a + 1 then UInt8.ofNat (v.toNat / 0x100)
  else if x = a + 2 then UInt8.ofNat (v.toNat / 0x10000)
  else if x = a + 3 then UInt8.ofNat (v.toNat / 0x1000000)
  else m x

/-- `n` bytes at `a` and `k` bytes at `b` share no byte, going either way round. -/
def Apart (a : UInt32) (n : ℕ) (b : UInt32) (k : ℕ) : Prop :=
  n ≤ (b - a).toNat ∧ k ≤ (a - b).toNat

instance (a : UInt32) (n : ℕ) (b : UInt32) (k : ℕ) : Decidable (Apart a n b k) :=
  inferInstanceAs (Decidable (_ ∧ _))

theorem Apart.symm {a b : UInt32} {n k : ℕ} (h : Apart a n b k) : Apart b k a n :=
  ⟨h.2, h.1⟩

theorem Apart.mono {a b : UInt32} {n n' k k' : ℕ} (h : Apart a n b k) (hn : n' ≤ n) (hk : k' ≤ k) :
    Apart a n' b k' :=
  ⟨hn.trans h.1, hk.trans h.2⟩

/-- Two blocks inside the address space, one after the other, are apart. -/
theorem apart_of_le {a b : UInt32} {n k : ℕ} (hn : 0 < n) (h : a.toNat + n ≤ b.toNat)
    (hb : b.toNat + k ≤ 2 ^ 32) : Apart a n b k :=
  ⟨by rw [toNat_sub_of_le (by omega)]; omega, by rw [toNat_sub_of_lt (by omega)]; omega⟩

/-- A byte outside a block inside the address space is at least the block's length past its start. -/
theorem far_of_outside {a x : UInt32} {n : ℕ} (h : x.toNat < a.toNat ∨ a.toNat + n ≤ x.toNat)
    (ha : a.toNat + n ≤ 2 ^ 32) : n ≤ (x - a).toNat := by
  rcases h with hlt | hge
  · rw [toNat_sub_of_lt hlt]
    omega
  · rw [toNat_sub_of_le (by omega)]
    omega

theorem apart_add (a : UInt32) {i j : UInt32} {n k : ℕ} :
    Apart (a + i) n (a + j) k ↔ Apart i n j k := by
  unfold Apart
  rw [show a + j - (a + i) = j - i by grind, show a + i - (a + j) = i - j by grind]

/-- The bytes of blocks that are apart are different ones. -/
theorem Apart.ne {a b : UInt32} {n k i j : ℕ} (h : Apart a n b k) (hi : i < n) (hj : j < k) :
    a + UInt32.ofNat i ≠ b + UInt32.ofNat j := by
  obtain ⟨h1, h2⟩ := h
  have ha := a.toNat_lt
  have hb := b.toNat_lt
  intro hsame
  have hsame' := congrArg UInt32.toNat hsame
  simp only [UInt32.toNat_sub, UInt32.toNat_add, UInt32.toNat_ofNat'] at *
  omega

/-- A byte of one block is past the end of the other, going on from where that starts. -/
theorem Apart.far {a b x : UInt32} {n k : ℕ} (h : Apart a n b k) (hx : (x - a).toNat < n) :
    k ≤ (x - b).toNat := by
  obtain ⟨h1, h2⟩ := h
  have ha := a.toNat_lt
  have hb := b.toNat_lt
  have hx' := x.toNat_lt
  simp only [UInt32.toNat_sub] at *
  omega

/-- Part of a block is apart from what the block is apart from. -/
theorem Apart.within {a b x : UInt32} {n k l : ℕ} (h : Apart a n b k) (hl : 0 < l)
    (hx : (x - a).toNat + l ≤ n) : Apart x l b k := by
  obtain ⟨h1, h2⟩ := h
  have ha := a.toNat_lt
  have hb := b.toNat_lt
  have hx' := x.toNat_lt
  unfold Apart
  simp only [UInt32.toNat_sub] at *
  constructor <;> omega

/-- Two different four-byte words on word boundaries are apart. -/
theorem apart_of_aligned {a b : UInt32} (ha : a.toNat % 4 = 0) (hb : b.toNat % 4 = 0)
    (h : a ≠ b) : Apart a 4 b 4 := by
  have hne := toNat_ne h
  have ha' := a.toNat_lt
  have hb' := b.toNat_lt
  rcases Nat.lt_or_gt_of_ne hne with hlt | hgt
  · exact apart_of_le (by decide) (by omega) (by omega)
  · exact (apart_of_le (by decide) (by omega) (by omega)).symm

/-! ### Reading back and framing -/

/-- A byte at distance four or more past `a` is not one of the four bytes written at `a`. -/
theorem write32_of_far (m : Mem) (a v : UInt32) {x : UInt32} (h : 4 ≤ (x - a).toNat) :
    write32 m a v x = m x := by
  have hne : ∀ i : UInt32, i.toNat < 4 → x ≠ a + i := by
    rintro i hi rfl
    rw [show a + i - a = i by grind] at h
    omega
  have h0 := hne 0 (by decide)
  rw [UInt32.add_zero] at h0
  simp only [write32, h0, hne 1 (by decide), hne 2 (by decide), hne 3 (by decide), if_false]

theorem write16_of_far (m : Mem) (a : UInt32) (v : UInt16) {x : UInt32} (h : 2 ≤ (x - a).toNat) :
    write16 m a v x = m x := by
  have hne : ∀ i : UInt32, i.toNat < 2 → x ≠ a + i := by
    rintro i hi rfl
    rw [show a + i - a = i by grind] at h
    omega
  have h0 := hne 0 (by decide)
  rw [UInt32.add_zero] at h0
  simp only [write16, h0, hne 1 (by decide), if_false]

theorem read32_congr {m m' : Mem} {a : UInt32}
    (h : ∀ i : UInt32, i.toNat < 4 → m (a + i) = m' (a + i)) : read32 m a = read32 m' a := by
  have h0 := h 0 (by decide)
  rw [UInt32.add_zero] at h0
  simp only [read32, h0, h 1 (by decide), h 2 (by decide), h 3 (by decide)]

/-- What lies at distance `n` or more from `a`, going on from `a`, cannot tell the difference. -/
theorem read32_of_apart {m m' : Mem} {a b : UInt32} {n : ℕ}
    (hm : ∀ x : UInt32, n ≤ (x - a).toNat → m' x = m x) (h : Apart a n b 4) :
    read32 m' b = read32 m b := by
  apply read32_congr
  intro i hi
  apply hm
  obtain ⟨h1, h2⟩ := h
  have ha := a.toNat_lt
  have hb := b.toNat_lt
  simp only [UInt32.toNat_sub, UInt32.toNat_add] at *
  omega

theorem read32_write16_of_apart (m : Mem) {a b : UInt32} (v : UInt16) (h : Apart a 2 b 4) :
    read32 (write16 m a v) b = read32 m b :=
  read32_of_apart (fun _ => write16_of_far m a v) h

theorem read32_write32_of_apart (m : Mem) {a b : UInt32} (v : UInt32) (h : Apart a 4 b 4) :
    read32 (write32 m a v) b = read32 m b :=
  read32_of_apart (fun _ => write32_of_far m a v) h

/-- A byte stored past the four of a word. -/
theorem read32_update_of_far (m : Mem) {a x : UInt32} (b : UInt8) (h : 4 ≤ (x - a).toNat) :
    read32 (Function.update m x b) a = read32 m a := by
  refine read32_congr fun i hi => Function.update_of_ne (fun he => ?_) _ _
  rw [← he, show a + i - a = i by grind] at h
  omega

theorem read16_write16_same (m : Mem) (a : UInt32) (v : UInt16) : read16 (write16 m a v) a = v := by
  have h1 : a + 1 ≠ a := by grind
  have hv := v.toNat_lt
  apply UInt16.toNat_inj.1
  simp only [read16, write16, h1, if_true, if_false, UInt8.toNat_ofNat', UInt16.toNat_ofNat']
  omega

theorem read32_write32_same (m : Mem) (a v : UInt32) : read32 (write32 m a v) a = v := by
  have h1 : a + 1 ≠ a := by grind
  have h2 : a + 2 ≠ a ∧ a + 2 ≠ a + 1 := by grind
  have h3 : a + 3 ≠ a ∧ a + 3 ≠ a + 1 ∧ a + 3 ≠ a + 2 := by grind
  have hv := v.toNat_lt
  apply eq_of_toNat
  simp only [read32, write32, h1, h2.1, h2.2, h3.1, h3.2.1, h3.2.2, if_true, if_false,
    UInt8.toNat_ofNat', UInt32.toNat_ofNat']
  omega

/-- A store to one aligned word, seen at another or at the same one. -/
theorem read32_write32_aligned (m : Mem) {a b : UInt32} (v : UInt32) (ha : a.toNat % 4 = 0)
    (hb : b.toNat % 4 = 0) :
    read32 (write32 m a v) b = if b = a then v else read32 m b := by
  split
  · rename_i h
    rw [h, read32_write32_same]
  · rename_i h
    exact read32_write32_of_apart m v (apart_of_aligned ha hb (Ne.symm h))

/-- Each byte of a word that is read and written again. -/
theorem write32_read32 (m m' : Mem) (a b : UInt32) {i : UInt32} (hi : i.toNat < 4) :
    write32 m a (read32 m' b) (a + i) = m' (b + i) := by
  have h1 : a + 1 ≠ a := by grind
  have h2 : a + 2 ≠ a ∧ a + 2 ≠ a + 1 := by grind
  have h3 : a + 3 ≠ a ∧ a + 3 ≠ a + 1 ∧ a + 3 ≠ a + 2 := by grind
  have hbyte : ∀ x y : UInt8, x.toNat = y.toNat → x = y := fun x y h => UInt8.toNat_inj.1 h
  have hlt := fun x => (m' x).toNat_lt
  have hi' : i = 0 ∨ i = 1 ∨ i = 2 ∨ i = 3 := by
    rcases (show i.toNat = 0 ∨ i.toNat = 1 ∨ i.toNat = 2 ∨ i.toNat = 3 by omega) with h | h | h | h
    · exact Or.inl (eq_of_toNat h)
    · exact Or.inr (Or.inl (eq_of_toNat h))
    · exact Or.inr (Or.inr (Or.inl (eq_of_toNat h)))
    · exact Or.inr (Or.inr (Or.inr (eq_of_toNat h)))
  have h0' := hlt b
  have h1' := hlt (b + 1)
  have h2' := hlt (b + 2)
  have h3' := hlt (b + 3)
  rcases hi' with rfl | rfl | rfl | rfl
  all_goals
    apply hbyte
    simp only [write32, read32, UInt32.add_zero, h1, h2.1, h2.2, h3.1, h3.2.1, h3.2.2, if_true,
      if_false, UInt8.toNat_ofNat', UInt32.toNat_ofNat']
    omega

/-! ### Filling a block of bytes -/

/-- `n` bytes from `a` on set to `v`. -/
def fill (m : Mem) (a : UInt32) (v : UInt8) (n : ℕ) : Mem := fun x =>
  if (x - a).toNat < n then v else m x

theorem fill_zero (m : Mem) (a : UInt32) (v : UInt8) : fill m a v 0 = m := by
  funext x
  rw [fill, if_neg (Nat.not_lt_zero _)]

theorem fill_of_far (m : Mem) {a x : UInt32} (v : UInt8) {n : ℕ} (h : n ≤ (x - a).toNat) :
    fill m a v n x = m x :=
  if_neg (Nat.not_lt.2 h)

theorem fill_add (m : Mem) (a : UInt32) (v : UInt8) {n i : ℕ} (hi : i < n) (hn : n ≤ 2 ^ 32) :
    fill m a v n (a + UInt32.ofNat i) = v := by
  have hdist : a + UInt32.ofNat i - a = UInt32.ofNat i := by grind
  exact if_pos (by rw [hdist, toNat_ofNat_of_lt (by omega)]; exact hi)

end ByteMemory
