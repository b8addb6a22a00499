import CometOS.Lib.Loop
import CometOS.Lib.Word

/-!
# Bitmaps (`kernel/kernel/array.c`)

A `bitmap_t` spends one word of `entries` on each of its `size` entries.  `words` is what the code
finds at `entries[i]` for every 32-bit `i`: nothing stops it from looking past the end, and there it
finds whatever memory holds.
-/

namespace CometOS

open Loop Word32

structure Bitmap where
  addr : UInt32
  entries : UInt32
  size : UInt32
  words : UInt32 → UInt32

def bitmapEntrieSet (index value : UInt32) (b : Bitmap) : Bitmap :=
  { b with words := fun i => if i = index then value else b.words i }

def bitmapEntrieCheck (index : UInt32) (b : Bitmap) : UInt32 := b.words index

/-- The inner loop of `bitmap_entrie_find`, from `x` on: whether it returns `i`. -/
def bitmapRunFrom (size value i : UInt32) (b : Bitmap) : ℕ → UInt32 → Option Bool
  | 0, _ => none
  | fuel + 1, x =>
    if b.words (i + x) = value then
      if x + 1 ≥ size then some true else bitmapRunFrom size value i b fuel (x + 1)
    else some false

/-- The outer loop, from `i` on.  It looks at one entry more than there are. -/
def bitmapFindFrom (size value : UInt32) (b : Bitmap) : ℕ → UInt32 → Option UInt32
  | 0, _ => none
  | fuel + 1, i =>
    if i ≤ b.size then
      (bitmapRunFrom size value i b (2 ^ 32) 0).bind fun found =>
        if found then some i else bitmapFindFrom size value b fuel (i + 1)
    else some (-1)

/-- `none` is a search that never ends. -/
def bitmapEntrieFind (size value : UInt32) (b : Bitmap) : Option UInt32 :=
  bitmapFindFrom size value b (2 ^ 32) 0

def bitmapMap (start stop value : UInt32) (b : Bitmap) : Bitmap :=
  if stop > b.size then b
  else forUp (fun i b => bitmapEntrieSet (UInt32.ofNat i) value b) start.toNat
    (stop.toNat - start.toNat) b

/-! ### Setting and mapping -/

@[simp] theorem bitmapEntrieSet_size (index value : UInt32) (b : Bitmap) :
    (bitmapEntrieSet index value b).size = b.size := rfl

@[simp] theorem bitmapEntrieSet_words (index value : UInt32) (b : Bitmap) (i : UInt32) :
    (bitmapEntrieSet index value b).words i = if i = index then value else b.words i := rfl

/-- The entries that `bitmap_map(start, stop, _)` writes. -/
def MapRange (size start stop i : UInt32) : Prop := stop ≤ size ∧ start ≤ i ∧ i < stop

instance (size start stop i : UInt32) : Decidable (MapRange size start stop i) :=
  inferInstanceAs (Decidable (_ ∧ _))

/-- **Mapping** writes the range, if it ends inside the bitmap, and nothing else. -/
theorem bitmapMap_words (start stop value : UInt32) (b : Bitmap) :
    (bitmapMap start stop value b).size = b.size ∧ ∀ i, (bitmapMap start stop value b).words i =
      if MapRange b.size start stop i then value else b.words i := by
  unfold bitmapMap
  by_cases hstop : stop > b.size
  · rw [if_pos hstop]
    refine ⟨rfl, fun i => ?_⟩
    rw [if_neg]
    rintro ⟨hle, -⟩
    exact absurd hstop (UInt32.not_lt.2 hle)
  · rw [if_neg hstop]
    have hle : stop ≤ b.size := UInt32.not_lt.1 hstop
    have hs := stop.toNat_lt
    have hinv := @forUp_inv Bitmap (fun n b' => b'.size = b.size ∧ ∀ i, b'.words i =
        if start.toNat ≤ i.toNat ∧ i.toNat < n then value else b.words i)
      (fun i b => bitmapEntrieSet (UInt32.ofNat i) value b)
      (stop.toNat - start.toNat) start.toNat b ⟨rfl, fun i => by rw [if_neg (by omega)]⟩
      (by
        rintro n b' hlo hhi ⟨hsz, hw⟩
        refine ⟨by rw [bitmapEntrieSet_size, hsz], fun i => ?_⟩
        rw [bitmapEntrieSet_words, hw i]
        have hn : (UInt32.ofNat n).toNat = n := toNat_ofNat_of_lt (by omega)
        have hin : i = UInt32.ofNat n ↔ i.toNat = n := by
          rw [← UInt32.toNat_inj, hn]
        simp only [hin]
        split_ifs <;> first | rfl | omega)
    refine ⟨hinv.1, fun i => ?_⟩
    rw [hinv.2 i]
    simp only [MapRange, hle, true_and, UInt32.le_iff_toNat_le, UInt32.lt_iff_toNat_lt]
    have hi := i.toNat_lt
    split_ifs <;> first | rfl | omega

/-! ### Searching -/

/-- `n` entries from `i` on hold `value`; the index wraps as the code's does. -/
def RunAt (b : Bitmap) (value i : UInt32) (n : ℕ) : Prop :=
  ∀ x < n, b.words (i + UInt32.ofNat x) = value

/-- A run of one entry. -/
theorem runAt_one {b : Bitmap} {value i : UInt32} : RunAt b value i 1 ↔ b.words i = value := by
  constructor
  · intro hrun
    have h0 := hrun 0 Nat.one_pos
    rwa [show i + UInt32.ofNat 0 = i from UInt32.add_zero i] at h0
  · intro hword x hx
    obtain rfl : x = 0 := by omega
    rwa [show i + UInt32.ofNat 0 = i from UInt32.add_zero i]

/-- The inner loop always ends, and returns at the runs of `size` entries, or of one entry for a
`size` of zero. -/
theorem bitmapRunFrom_spec (size value i : UInt32) (b : Bitmap) :
    ∀ (fuel : ℕ) (x : UInt32), RunAt b value i x.toNat → x.toNat < max size.toNat 1 →
      max size.toNat 1 ≤ x.toNat + fuel →
      ∃ found, bitmapRunFrom size value i b fuel x = some found ∧
        (found = true ↔ RunAt b value i (max size.toNat 1)) := by
  intro fuel
  induction fuel with
  | zero => intro x _ hlt hle; omega
  | succ fuel ih =>
    intro x hrun hlt hle
    have hsz := size.toNat_lt
    have hx1 : (x + 1).toNat = x.toNat + 1 ∨ (x + 1).toNat = 0 ∧ x.toNat = 2 ^ 32 - 1 := by
      rw [UInt32.toNat_add]
      simp only [UInt32.reduceToNat]
      omega
    have hne : (x + 1).toNat = x.toNat + 1 := by omega
    unfold bitmapRunFrom
    by_cases hw : b.words (i + x) = value
    · rw [if_pos hw]
      have hrun' : RunAt b value i (x.toNat + 1) := by
        intro y hy
        rcases Nat.lt_succ_iff_lt_or_eq.1 hy with hy | rfl
        · exact hrun y hy
        · rw [ofNat_toNat]
          exact hw
      by_cases hge : x + 1 ≥ size
      · rw [if_pos hge]
        have hge' : size.toNat ≤ x.toNat + 1 := by
          rw [← hne]
          exact UInt32.le_iff_toNat_le.1 hge
        refine ⟨true, rfl, fun _ y hy => hrun' y (by omega), fun _ => rfl⟩
      · rw [if_neg hge]
        have hlt' : x.toNat + 1 < size.toNat := by
          rw [← hne]
          exact UInt32.lt_iff_toNat_lt.1 (UInt32.not_le.1 hge)
        refine ih (x + 1) ?_ (by omega) (by omega)
        rw [hne]
        exact hrun'
    · rw [if_neg hw]
      refine ⟨false, rfl, fun h => (Bool.false_ne_true h).elim, fun h => (hw ?_).elim⟩
      have := h x.toNat hlt
      rwa [ofNat_toNat] at this

theorem bitmapRunFrom_eq (size value i : UInt32) (b : Bitmap) :
    ∃ found, bitmapRunFrom size value i b (2 ^ 32) 0 = some found ∧
      (found = true ↔ RunAt b value i (max size.toNat 1)) := by
  have hsz := size.toNat_lt
  refine bitmapRunFrom_spec size value i b (2 ^ 32) 0 (fun x hx => ?_) ?_ ?_
  · exact absurd hx (Nat.not_lt_zero x)
  · show 0 < max size.toNat 1
    omega
  · show max size.toNat 1 ≤ 0 + 2 ^ 32
    omega

/-- What a search that ends has found: the first run at or before entry `size`, or none. -/
inductive FindResult (b : Bitmap) (value : UInt32) (n : ℕ) : UInt32 → Prop
  | found (i : UInt32) (hi : i ≤ b.size) (hrun : RunAt b value i n)
      (hfirst : ∀ j < i, ¬ RunAt b value j n) : FindResult b value n i
  | notFound (h : ∀ j ≤ b.size, ¬ RunAt b value j n) : FindResult b value n (-1)

theorem FindResult.unique {b : Bitmap} {value i j : UInt32} {n : ℕ} (hi : FindResult b value n i)
    (hj : FindResult b value n j) : i = j := by
  cases hi with
  | found _ hle hrun hfirst =>
    cases hj with
    | found _ hle' hrun' hfirst' =>
      by_contra hne
      rcases Nat.lt_or_gt_of_ne (toNat_ne hne) with hlt | hgt
      · exact hfirst' i (UInt32.lt_iff_toNat_lt.2 hlt) hrun
      · exact hfirst j (UInt32.lt_iff_toNat_lt.2 hgt) hrun'
    | notFound hno => exact absurd hrun (hno i hle)
  | notFound hno =>
    cases hj with
    | found _ hle hrun _ => exact absurd hrun (hno j hle)
    | notFound _ => rfl

theorem bitmapFindFrom_spec (size value : UInt32) (b : Bitmap) :
    ∀ (fuel : ℕ) (i r : UInt32), (∀ j < i, ¬ RunAt b value j (max size.toNat 1)) →
      bitmapFindFrom size value b fuel i = some r → FindResult b value (max size.toNat 1) r := by
  intro fuel
  induction fuel with
  | zero => intro i r _ h; cases h
  | succ fuel ih =>
    intro i r hbefore h
    unfold bitmapFindFrom at h
    by_cases hi : i ≤ b.size
    · obtain ⟨found, hrun, hiff⟩ := bitmapRunFrom_eq size value i b
      rw [if_pos hi, hrun, Option.bind_some] at h
      cases found with
      | true =>
        obtain rfl : i = r := by simpa using h
        exact FindResult.found i hi (hiff.1 rfl) hbefore
      | false =>
        have hno : ¬ RunAt b value i (max size.toNat 1) := fun hr => by simpa using hiff.2 hr
        refine ih (i + 1) r (fun j hj => ?_) (by simpa using h)
        by_cases hji : j = i
        · rw [hji]
          exact hno
        · apply hbefore j
          rw [UInt32.lt_iff_toNat_lt] at hj ⊢
          simp only [UInt32.toNat_add, UInt32.reduceToNat] at hj
          have := toNat_ne hji
          have := i.toNat_lt
          omega
    · rw [if_neg hi] at h
      obtain rfl : -1 = r := by simpa using h
      refine FindResult.notFound fun j hj => hbefore j ?_
      rw [UInt32.lt_iff_toNat_lt]
      rw [UInt32.not_le, UInt32.lt_iff_toNat_lt] at hi
      rw [UInt32.le_iff_toNat_le] at hj
      omega

/-- **First fit.**  A search that ends returns the first run of free entries, or `-1`. -/
theorem bitmapEntrieFind_spec {size value r : UInt32} {b : Bitmap}
    (h : bitmapEntrieFind size value b = some r) : FindResult b value (max size.toNat 1) r :=
  bitmapFindFrom_spec size value b (2 ^ 32) 0 r
    (fun _ hj => absurd (UInt32.lt_iff_toNat_lt.1 hj) (Nat.not_lt_zero _)) h

theorem bitmapFindFrom_total (size value : UInt32) (b : Bitmap) :
    ∀ (fuel : ℕ) (i : UInt32), b.size.toNat + 1 < 2 ^ 32 → i.toNat ≤ b.size.toNat + 1 →
      b.size.toNat + 2 ≤ i.toNat + fuel → ∃ r, bitmapFindFrom size value b fuel i = some r := by
  intro fuel
  induction fuel with
  | zero => intro i _ hi hf; omega
  | succ fuel ih =>
    intro i hb hi hf
    unfold bitmapFindFrom
    by_cases hle : i ≤ b.size
    · obtain ⟨found, hrun, -⟩ := bitmapRunFrom_eq size value i b
      rw [if_pos hle, hrun, Option.bind_some]
      cases found with
      | true => exact ⟨i, rfl⟩
      | false =>
        have hi1 : (i + 1).toNat = i.toNat + 1 := by
          rw [UInt32.le_iff_toNat_le] at hle
          exact toNat_add_of_lt (by simp only [UInt32.reduceToNat]; omega)
        exact ih (i + 1) hb (by rw [UInt32.le_iff_toNat_le] at hle; omega) (by omega)
    · exact ⟨-1, by rw [if_neg hle]⟩

/-- The search ends unless the last entry's number is the largest there is. -/
theorem bitmapEntrieFind_total (size value : UInt32) (b : Bitmap) (h : b.size ≠ 0xFFFFFFFF) :
    ∃ r, bitmapEntrieFind size value b = some r := by
  have hne := toNat_ne h
  have hlt := b.size.toNat_lt
  simp only [UInt32.reduceToNat] at hne
  refine bitmapFindFrom_total size value b (2 ^ 32) 0 (by omega) ?_ ?_
  · exact Nat.zero_le _
  · show b.size.toNat + 2 ≤ 0 + 2 ^ 32
    omega

/-- A run that is there is come to, whatever the size of the bitmap. -/
theorem bitmapFindFrom_found {size value i₀ : UInt32} {b : Bitmap} (hle : i₀ ≤ b.size)
    (hrun : RunAt b value i₀ (max size.toNat 1))
    (hfirst : ∀ j < i₀, ¬ RunAt b value j (max size.toNat 1)) :
    ∀ (fuel : ℕ) (i : UInt32), i ≤ i₀ → i₀.toNat - i.toNat < fuel →
      bitmapFindFrom size value b fuel i = some i₀ := by
  intro fuel
  induction fuel with
  | zero => intro i _ hf; omega
  | succ fuel ih =>
    intro i hi hf
    obtain ⟨found, hfrom, hiff⟩ := bitmapRunFrom_eq size value i b
    rw [bitmapFindFrom, if_pos (UInt32.le_trans hi hle), hfrom, Option.bind_some]
    rw [UInt32.le_iff_toNat_le] at hi
    rcases Nat.lt_or_eq_of_le hi with hlt | heq
    · have hno := hfirst i (UInt32.lt_iff_toNat_lt.2 hlt)
      have hlast := i₀.toNat_lt
      have hi1 : (i + 1).toNat = i.toNat + 1 :=
        toNat_add_of_lt (by simp only [UInt32.reduceToNat]; omega)
      rw [if_neg fun htrue => hno (hiff.1 htrue)]
      exact ih (i + 1) (UInt32.le_iff_toNat_le.2 (by omega)) (by omega)
    · obtain rfl := eq_of_toNat heq
      rw [if_pos (hiff.2 hrun)]

theorem bitmapFindFrom_endless {size value : UInt32} {b : Bitmap} (hsize : b.size = 0xFFFFFFFF)
    (hno : ∀ j ≤ b.size, ¬ RunAt b value j (max size.toNat 1)) :
    ∀ (fuel : ℕ) (i : UInt32), bitmapFindFrom size value b fuel i = none := by
  intro fuel
  induction fuel with
  | zero => exact fun _ => rfl
  | succ fuel ih =>
    intro i
    have hi : i ≤ b.size := by
      rw [hsize, UInt32.le_iff_toNat_le, show (0xFFFFFFFF : UInt32).toNat = 2 ^ 32 - 1 from rfl]
      have hlt := i.toNat_lt
      omega
    obtain ⟨found, hfrom, hiff⟩ := bitmapRunFrom_eq size value i b
    rw [bitmapFindFrom, if_pos hi, hfrom, Option.bind_some, if_neg fun htrue => hno i hi (hiff.1 htrue)]
    exact ih (i + 1)

/-- **What a search returns**, in full: it ends but for a bitmap of the largest size with no run. -/
theorem bitmapEntrieFind_iff {size value r : UInt32} {b : Bitmap} :
    bitmapEntrieFind size value b = some r ↔ FindResult b value (max size.toNat 1) r ∧
      (b.size = 0xFFFFFFFF → RunAt b value r (max size.toNat 1)) := by
  constructor
  · intro h
    have hresult := bitmapEntrieFind_spec h
    refine ⟨hresult, fun hsize => ?_⟩
    cases hresult with
    | found _ _ hrun _ => exact hrun
    | notFound hno =>
      rw [bitmapEntrieFind, bitmapFindFrom_endless hsize hno] at h
      cases h
  · rintro ⟨hresult, hlargest⟩
    by_cases hsize : b.size = 0xFFFFFFFF
    · cases hresult with
      | found _ hle hrun hfirst =>
        have hlt := r.toNat_lt
        exact bitmapFindFrom_found hle hrun hfirst _ 0 (UInt32.le_iff_toNat_le.2 (Nat.zero_le _))
          (by omega)
      | notFound hno => exact absurd (hlargest hsize) (hno _ (by rw [hsize]; decide))
    · obtain ⟨r', hr'⟩ := bitmapEntrieFind_total size value b hsize
      rw [hr', hresult.unique (bitmapEntrieFind_spec hr')]

end CometOS
