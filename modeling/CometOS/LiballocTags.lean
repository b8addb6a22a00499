import CometOS.Liballoc

/-!
# What the tag operations write

For each helper of `liballoc.c`, the fields of every tag afterwards in terms of the fields before.
`T` is the set of tags in play; they are apart from one another, so that a store to a field of one is
seen in that field of that tag only.
-/

namespace CometOS

open ByteMemory Loop Record Run Word32

/-! ### Exponents -/

theorem toNat_one_shiftLeft {k : ℕ} (hk : k < 32) : (1 <<< UInt32.ofNat k : UInt32).toNat = 2 ^ k := by
  have hlt : 2 ^ k < 2 ^ 32 := Nat.pow_lt_pow_right (by decide) hk
  rw [UInt32.toNat_shiftLeft, toNat_ofNat_of_lt (by omega), Nat.mod_eq_of_lt hk,
    show (1 : UInt32).toNat = 1 from rfl, Nat.one_shiftLeft, Nat.mod_eq_of_lt hlt]

theorem getexpShift_eq {size : UInt32} : ∀ n shift : ℕ, shift + n = 32 → 0 < shift →
    2 ^ (shift - 1) ≤ size.toNat → getexpShift size n shift = Nat.log2 size.toNat + 1 := by
  intro n
  induction n with
  | zero =>
    intro shift hsum hpos hle
    obtain rfl : shift = 32 := by omega
    have hne : size.toNat ≠ 0 := by omega
    have h1 := (Nat.le_log2 hne).2 hle
    have h2 := (Nat.log2_lt (k := 32) hne).2 size.toNat_lt
    rw [getexpShift]
    omega
  | succ n ih =>
    intro shift hsum hpos hle
    have hpow := Nat.two_pow_pos (shift - 1)
    have hne : size.toNat ≠ 0 := by omega
    simp only [getexpShift, UInt32.lt_iff_toNat_lt, toNat_one_shiftLeft (show shift < 32 by omega)]
    split
    · rename_i hlt
      have h1 := (Nat.le_log2 hne).2 hle
      have h2 := (Nat.log2_lt hne).2 hlt
      omega
    · rename_i hge
      exact ih (shift + 1) (by omega) (by omega) (by rw [Nat.add_sub_cancel]; omega)

/-- **`getexp`** is the binary logarithm, from the quantum on. -/
theorem getexp_eq (size : UInt32) :
    getexp size = if size.toNat < 256 then -1 else (Nat.log2 size.toNat : ℤ) := by
  simp only [getexp, UInt32.lt_iff_toNat_lt, show ((1 : UInt32) <<< 8).toNat = 256 from rfl]
  split
  · rfl
  · rename_i hge
    rw [getexpShift_eq 24 8 rfl (by decide) (by omega)]
    omega

/-- The list for a tag with `n` bytes of space. -/
def listIndex (n : ℕ) : ℤ := max 8 (Nat.log2 n : ℤ)

theorem atLeastMinexp_getexp (size : UInt32) :
    atLeastMinexp (getexp size) = listIndex size.toNat := by
  rw [atLeastMinexp, getexp_eq, listIndex]
  by_cases h : size.toNat < 256
  · have hlog : Nat.log2 size.toNat < 8 := by
      by_cases h0 : size.toNat = 0
      · rw [h0]
        decide
      · exact (Nat.log2_lt h0).2 h
    rw [if_pos h, if_pos (by decide)]
    omega
  · have hlog := (Nat.le_log2 (k := 8) (n := size.toNat) (by omega)).2 (by omega)
    rw [if_neg h, if_neg (by omega)]
    omega

theorem listIndex_bounds {n : ℕ} (h : n < 2 ^ 32) : 8 ≤ listIndex n ∧ listIndex n < 32 := by
  have hlog : Nat.log2 n < 32 := by
    by_cases h0 : n = 0
    · rw [h0]
      decide
    · exact (Nat.log2_lt h0).2 h
  rw [listIndex]
  omega

/-! ### Loads and stores -/

namespace Liballoc

variable {T : UInt32 → Prop}

theorem get_set (hT : boundaryTag.Separated T) (s : Liballoc) {a b : UInt32} (ha : T a) (hb : T b)
    (f g : TagField) (v : UInt32) :
    (s.set a f v).get b g = if b = a ∧ g = f then v else s.get b g :=
  hT.get_set s.mem ha hb f g v

theorem get_set_if (hT : boundaryTag.Separated T) (s : Liballoc) {a b : UInt32}
    (ha : a ≠ 0 → T a) (hb : T b) (f g : TagField) (v : UInt32) :
    (if a ≠ 0 then s.set a f v else s).get b g = if b = a ∧ g = f then v else s.get b g := by
  have h := hT.get_set_if s.mem ha hb f g v
  by_cases h0 : a = 0
  · rw [if_neg (not_not.2 h0)] at h ⊢
    exact h
  · rw [if_pos h0] at h ⊢
    exact h

@[simp] theorem set_freePages (s : Liballoc) (a : UInt32) (f : TagField) (v : UInt32) :
    (s.set a f v).freePages = s.freePages := rfl

@[simp] theorem set_completePages (s : Liballoc) (a : UInt32) (f : TagField) (v : UInt32) :
    (s.set a f v).completePages = s.completePages := rfl

@[simp] theorem set_initialized (s : Liballoc) (a : UInt32) (f : TagField) (v : UInt32) :
    (s.set a f v).initialized = s.initialized := rfl

@[simp] theorem setIndex_freePages (s : Liballoc) (a : UInt32) (i : ℤ) :
    (s.setIndex a i).freePages = s.freePages := rfl

@[simp] theorem setIndex_completePages (s : Liballoc) (a : UInt32) (i : ℤ) :
    (s.setIndex a i).completePages = s.completePages := rfl

@[simp] theorem setIndex_initialized (s : Liballoc) (a : UInt32) (i : ℤ) :
    (s.setIndex a i).initialized = s.initialized := rfl

/-- A signed word reads back as it was written. -/
theorem toInt_ofInt {i : ℤ} (h1 : -2 ^ 31 ≤ i) (h2 : i < 2 ^ 31) :
    (Int32.ofInt i).toUInt32.toInt32.toInt = i := by
  rw [Int32.toInt32_toUInt32]
  exact Int32.toInt_ofInt_of_le h1 h2

/-- A store of another field leaves the index alone. -/
theorem index_set (hT : boundaryTag.Separated T) (s : Liballoc) {a b : UInt32} (ha : T a) (hb : T b)
    {f : TagField} (hf : f ≠ .index) (v : UInt32) : (s.set a f v).index b = s.index b := by
  rw [index, get_set hT s ha hb, if_neg fun h => hf h.2.symm]
  rfl

theorem get_setIndex (hT : boundaryTag.Separated T) (s : Liballoc) {a b : UInt32} (ha : T a)
    (hb : T b) {f : TagField} (hf : f ≠ .index) (i : ℤ) : (s.setIndex a i).get b f = s.get b f := by
  rw [setIndex, get_set hT s ha hb, if_neg fun h => hf h.2]

theorem index_setIndex (hT : boundaryTag.Separated T) (s : Liballoc) {a b : UInt32} (ha : T a)
    (hb : T b) {i : ℤ} (h1 : -2 ^ 31 ≤ i) (h2 : i < 2 ^ 31) :
    (s.setIndex a i).index b = if b = a then i else s.index b := by
  rw [index, setIndex, get_set hT s ha hb]
  by_cases h : b = a
  · rw [if_pos ⟨h, rfl⟩, if_pos h, toInt_ofInt h1 h2]
  · rw [if_neg fun hc => h hc.1, if_neg h]
    rfl

end Liballoc

section Tags

variable {T : UInt32 → Prop} {s : Liballoc} {tag u : UInt32}

/-! ### `remove_tag` -/

/-- A tag's neighbours in its list are tags, and not the tag itself. -/
structure ListNeighbours (T : UInt32 → Prop) (s : Liballoc) (tag : UInt32) : Prop where
  prev : s.get tag .prev ≠ 0 → T (s.get tag .prev)
  next : s.get tag .next ≠ 0 → T (s.get tag .next)
  prev_ne : s.get tag .prev ≠ tag
  next_ne : s.get tag .next ≠ tag

theorem removeTag_freePages : (removeTag tag s).freePages =
    if s.freePages (s.index tag) = tag then
      Function.update s.freePages (s.index tag) (s.get tag .next)
    else s.freePages := by
  simp only [removeTag, Liballoc.set_freePages, Liballoc.setIndex_freePages,
    apply_ite Liballoc.freePages, ite_self]

theorem removeTag_completePages : (removeTag tag s).completePages = s.completePages := by
  simp only [removeTag, Liballoc.set_completePages, Liballoc.setIndex_completePages,
    apply_ite Liballoc.completePages, ite_self]

theorem removeTag_initialized : (removeTag tag s).initialized = s.initialized := by
  simp only [removeTag, Liballoc.set_initialized, Liballoc.setIndex_initialized,
    apply_ite Liballoc.initialized, ite_self]

/-- **`remove_tag`.**  The tag's neighbours are linked to each other, and it is in no list. -/
theorem removeTag_spec (hT : boundaryTag.Separated T) (ht : T tag) (hl : ListNeighbours T s tag)
    (hu : T u) :
    (removeTag tag s).index u = (if u = tag then -1 else s.index u) ∧
      ∀ f, f ≠ .index → (removeTag tag s).get u f =
        if u = tag ∧ (f = .next ∨ f = .prev) then 0
        else if u = s.get tag .prev ∧ f = .next then s.get tag .next
        else if u = s.get tag .next ∧ f = .prev then s.get tag .prev
        else s.get u f := by
  obtain ⟨s₀, h₀⟩ : ∃ t, t = if s.freePages (s.index tag) = tag then
      { s with freePages := Function.update s.freePages (s.index tag) (s.get tag .next) }
    else s := ⟨_, rfl⟩
  have hs₀ : ∀ v g, s₀.get v g = s.get v g := by
    intro v g
    rw [h₀]
    split <;> rfl
  obtain ⟨s₁, h₁⟩ : ∃ t, t = if s₀.get tag .prev ≠ 0 then
      s₀.set (s₀.get tag .prev) .next (s₀.get tag .next) else s₀ := ⟨_, rfl⟩
  have hs₁ : ∀ v g, T v → s₁.get v g =
      if v = s.get tag .prev ∧ g = .next then s.get tag .next else s.get v g := by
    intro v g hv
    rw [h₁, Liballoc.get_set_if hT s₀ (by rw [hs₀]; exact hl.prev) hv, hs₀, hs₀, hs₀]
  have hnext : s₁.get tag .next = s.get tag .next := by
    rw [hs₁ _ _ ht, if_neg fun h => hl.prev_ne h.1.symm]
  have hprev : s₁.get tag .prev = s.get tag .prev := by
    rw [hs₁ _ _ ht, if_neg fun h => hl.prev_ne h.1.symm]
  obtain ⟨s₂, h₂⟩ : ∃ t, t = if s₁.get tag .next ≠ 0 then
      s₁.set (s₁.get tag .next) .prev (s₁.get tag .prev) else s₁ := ⟨_, rfl⟩
  have hs₂ : ∀ v g, T v → s₂.get v g =
      if v = s.get tag .next ∧ g = .prev then s.get tag .prev else s₁.get v g := by
    intro v g hv
    rw [h₂, Liballoc.get_set_if hT s₁ (by rw [hnext]; exact hl.next) hv, hnext, hprev]
  have heq : removeTag tag s = ((s₂.set tag .next 0).set tag .prev 0).setIndex tag (-1) := by
    subst h₂ h₁ h₀
    rfl
  rw [heq]
  constructor
  · have hindex : s₂.index u = s.index u := by
      rw [Liballoc.index, hs₂ _ _ hu, if_neg fun h => absurd h.2 (by decide), hs₁ _ _ hu,
        if_neg fun h => absurd h.2 (by decide)]
      rfl
    rw [Liballoc.index_setIndex hT _ ht hu (by decide) (by decide),
      Liballoc.index_set hT _ ht hu (by decide), Liballoc.index_set hT _ ht hu (by decide), hindex]
  · intro f hf
    rw [Liballoc.get_setIndex hT _ ht hu hf, Liballoc.get_set hT _ ht hu,
      Liballoc.get_set hT _ ht hu, hs₂ _ _ hu, hs₁ _ _ hu]
    cases f <;> by_cases hut : u = tag <;> simp [hut]

/-- The fields `remove_tag` has nothing to do with. -/
theorem removeTag_get_of_ne (hT : boundaryTag.Separated T) (ht : T tag)
    (hl : ListNeighbours T s tag) (hu : T u) {f : TagField}
    (hf : f ≠ .index ∧ f ≠ .next ∧ f ≠ .prev) : (removeTag tag s).get u f = s.get u f := by
  rw [(removeTag_spec hT ht hl hu).2 f hf.1, if_neg fun h => h.2.elim hf.2.1 hf.2.2,
    if_neg fun h => hf.2.1 h.2, if_neg fun h => hf.2.2 h.2]

/-! ### `insert_tag` -/

/-- The list `insert_tag` puts the tag in. -/
def insertIndex (tag : UInt32) (index : ℤ) (s : Liballoc) : ℤ :=
  if index < 0 then atLeastMinexp (getexp (s.get tag .realSize - 32)) else index

theorem insertTag_freePages (index : ℤ) : (insertTag tag index s).freePages =
    Function.update s.freePages (insertIndex tag index s) tag := by
  show Function.update (Liballoc.freePages
    (if s.freePages (insertIndex tag index s) ≠ 0 then _ else _)) _ _ = _
  rw [apply_ite Liballoc.freePages]
  simp only [Liballoc.set_freePages, Liballoc.setIndex_freePages, ite_self]
  rfl

theorem insertTag_completePages (index : ℤ) :
    (insertTag tag index s).completePages = s.completePages := by
  simp only [insertTag, Liballoc.set_completePages, Liballoc.setIndex_completePages,
    apply_ite Liballoc.completePages, ite_self]

theorem insertTag_initialized (index : ℤ) :
    (insertTag tag index s).initialized = s.initialized := by
  simp only [insertTag, Liballoc.set_initialized, Liballoc.setIndex_initialized,
    apply_ite Liballoc.initialized, ite_self]

/-- **`insert_tag`**, of a tag whose links are null.  It goes before the first tag of its list. -/
theorem insertTag_spec (hT : boundaryTag.Separated T) {i r : ℤ} (hr : insertIndex tag i s = r)
    (hr0 : 0 ≤ r) (hr1 : r < 32) (ht : T tag)
    (hhead : s.freePages r ≠ 0 → T (s.freePages r)) (hne : s.freePages r ≠ tag)
    (hnull : s.get tag .next = 0) (hu : T u) :
    (insertTag tag i s).index u = (if u = tag then r else s.index u) ∧
      ∀ f, f ≠ .index → (insertTag tag i s).get u f =
        if u = tag ∧ f = .next then s.freePages r
        else if u = s.freePages r ∧ f = .prev then tag
        else s.get u f := by
  have hlo : -2 ^ 31 ≤ r := by omega
  have hhi : r < 2 ^ 31 := by omega
  obtain ⟨s₀, h₀⟩ : ∃ t, t = s.setIndex tag r := ⟨_, rfl⟩
  obtain ⟨s₁, h₁⟩ : ∃ t, t = if s.freePages r ≠ 0 then
      (s₀.set (s.freePages r) .prev tag).set tag .next (s.freePages r) else s₀ := ⟨_, rfl⟩
  have heq : ∀ v g, (insertTag tag i s).get v g = s₁.get v g := by
    intro v g
    subst h₁ h₀ hr
    rfl
  have hget : ∀ g, s₁.get u g = if u = tag ∧ g = .next then
      (if s.freePages r ≠ 0 then s.freePages r else s₀.get u g)
      else if u = s.freePages r ∧ g = .prev then tag else s₀.get u g := by
    intro g
    by_cases h0 : s.freePages r = 0
    · have hu0 : u ≠ s.freePages r := by
        rw [h0]
        exact hT.ne_zero hu
      rw [h₁, if_neg (not_not.2 h0), if_neg (not_not.2 h0),
        if_neg (c := u = s.freePages r ∧ g = .prev) fun h => hu0 h.1, ite_self]
    · rw [h₁, if_pos h0, if_pos h0, Liballoc.get_set hT _ ht hu,
        Liballoc.get_set hT _ (hhead h0) hu]
  constructor
  · have hindex := Liballoc.index_setIndex hT s ht hu hlo hhi
    rw [← h₀] at hindex
    rw [← hindex, Liballoc.index, heq, hget, if_neg fun h => absurd h.2 (by decide),
      if_neg fun h => absurd h.2 (by decide)]
    rfl
  · intro f hf
    rw [heq, hget, h₀, Liballoc.get_setIndex hT s ht hu hf]
    by_cases hnext : u = tag ∧ f = .next
    · rw [if_pos hnext, if_pos hnext, hnext.1, hnext.2, hnull]
      split
      · rfl
      · rename_i h
        exact (not_not.1 h).symm
    · rw [if_neg hnext, if_neg hnext]

/-- The fields `insert_tag` has nothing to do with. -/
theorem insertTag_get_of_ne (hT : boundaryTag.Separated T) {i r : ℤ}
    (hr : insertIndex tag i s = r) (hr0 : 0 ≤ r) (hr1 : r < 32) (ht : T tag)
    (hhead : s.freePages r ≠ 0 → T (s.freePages r)) (hne : s.freePages r ≠ tag)
    (hnull : s.get tag .next = 0) (hu : T u) {f : TagField}
    (hf : f ≠ .index ∧ f ≠ .next ∧ f ≠ .prev) : (insertTag tag i s).get u f = s.get u f := by
  rw [(insertTag_spec hT hr hr0 hr1 ht hhead hne hnull hu).2 f hf.1, if_neg fun h => hf.2.1 h.2,
    if_neg fun h => hf.2.2 h.2]

/-! ### Melting -/

/-- What `melt_left` and `absorb_right` both do: the tag `right` becomes part of `left`. -/
def meldTag (left right : UInt32) (s : Liballoc) : Liballoc :=
  let s := s.set left .realSize (s.get left .realSize + s.get right .realSize)
  let s := s.set left .splitRight (s.get right .splitRight)
  if s.get right .splitRight ≠ 0 then s.set (s.get right .splitRight) .splitLeft left else s

theorem meltLeft_eq : meltLeft tag s =
    (s.get tag .splitLeft, meldTag (s.get tag .splitLeft) tag s) := rfl

theorem absorbRight_eq : absorbRight tag s =
    (tag, meldTag tag (s.get tag .splitRight) (removeTag (s.get tag .splitRight) s)) := rfl

variable {left right : UInt32}

theorem meldTag_freePages : (meldTag left right s).freePages = s.freePages := by
  simp only [meldTag, Liballoc.set_freePages, apply_ite Liballoc.freePages, ite_self]

theorem meldTag_completePages : (meldTag left right s).completePages = s.completePages := by
  simp only [meldTag, Liballoc.set_completePages, apply_ite Liballoc.completePages, ite_self]

theorem meldTag_initialized : (meldTag left right s).initialized = s.initialized := by
  simp only [meldTag, Liballoc.set_initialized, apply_ite Liballoc.initialized, ite_self]

/-- **Melting.**  `left` takes the size of `right`, and the place next to what was right of it. -/
theorem meldTag_get (hT : boundaryTag.Separated T) (hleft : T left) (hright : T right)
    (hne : left ≠ right) (hnext : s.get right .splitRight ≠ 0 → T (s.get right .splitRight))
    (hu : T u) (f : TagField) :
    (meldTag left right s).get u f =
      if u = left ∧ f = .realSize then s.get left .realSize + s.get right .realSize
      else if u = left ∧ f = .splitRight then s.get right .splitRight
      else if u = s.get right .splitRight ∧ f = .splitLeft then left
      else s.get u f := by
  obtain ⟨s₁, h₁⟩ : ∃ t, t =
    (s.set left .realSize (s.get left .realSize + s.get right .realSize)).set left .splitRight
      ((s.set left .realSize (s.get left .realSize + s.get right .realSize)).get right .splitRight) :=
    ⟨_, rfl⟩
  have hread : (s.set left .realSize (s.get left .realSize + s.get right .realSize)).get right
      .splitRight = s.get right .splitRight := by
    rw [Liballoc.get_set hT _ hleft hright, if_neg fun h => hne h.1.symm]
  have hs₁ : ∀ v g, T v → s₁.get v g =
      if v = left ∧ g = .splitRight then s.get right .splitRight
      else if v = left ∧ g = .realSize then s.get left .realSize + s.get right .realSize
      else s.get v g := by
    intro v g hv
    rw [h₁, hread, Liballoc.get_set hT _ hleft hv, Liballoc.get_set hT _ hleft hv]
  have hsplit : s₁.get right .splitRight = s.get right .splitRight := by
    rw [hs₁ _ _ hright, if_neg fun h => hne h.1.symm, if_neg fun h => hne h.1.symm]
  have heq : meldTag left right s = if s₁.get right .splitRight ≠ 0 then
      s₁.set (s₁.get right .splitRight) .splitLeft left else s₁ := by
    subst h₁
    rfl
  rw [heq, Liballoc.get_set_if hT s₁ (by rw [hsplit]; exact hnext) hu, hsplit, hs₁ _ _ hu]
  cases f <;> simp

theorem meldTag_index (hT : boundaryTag.Separated T) (hleft : T left) (hright : T right)
    (hne : left ≠ right) (hnext : s.get right .splitRight ≠ 0 → T (s.get right .splitRight))
    (hu : T u) : (meldTag left right s).index u = s.index u := by
  rw [Liballoc.index, meldTag_get hT hleft hright hne hnext hu, if_neg fun h => absurd h.2 (by decide),
    if_neg fun h => absurd h.2 (by decide), if_neg fun h => absurd h.2 (by decide)]
  rfl

/-! ### Splitting -/

/-- `split_tag` before the new tag goes to its list. -/
def carveTag (tag : UInt32) (s : Liballoc) : Liballoc :=
  let remainder := s.get tag .realSize - 32 - s.get tag .size
  let newTag := tag + 32 + s.get tag .size
  let s := s.set newTag .magic liballocMagic
  let s := s.set newTag .realSize remainder
  let s := s.set newTag .next 0
  let s := s.set newTag .prev 0
  let s := s.set newTag .splitLeft tag
  let s := s.set newTag .splitRight (s.get tag .splitRight)
  let s :=
    if s.get newTag .splitRight ≠ 0 then s.set (s.get newTag .splitRight) .splitLeft newTag else s
  let s := s.set tag .splitRight newTag
  s.set tag .realSize (s.get tag .realSize - s.get newTag .realSize)

theorem splitTag_eq : splitTag tag s =
    (tag + 32 + s.get tag .size, insertTag (tag + 32 + s.get tag .size) (-1) (carveTag tag s)) := rfl

theorem carveTag_freePages : (carveTag tag s).freePages = s.freePages := by
  rw [carveTag]
  simp only [Liballoc.set_freePages, apply_ite Liballoc.freePages, ite_self]

theorem carveTag_completePages : (carveTag tag s).completePages = s.completePages := by
  rw [carveTag]
  simp only [Liballoc.set_completePages, apply_ite Liballoc.completePages, ite_self]

theorem carveTag_initialized : (carveTag tag s).initialized = s.initialized := by
  rw [carveTag]
  simp only [Liballoc.set_initialized, apply_ite Liballoc.initialized, ite_self]

/-- The six fields of the new tag that are set first. -/
def newTagValue (tag remainder w : UInt32) (f : TagField) (v : UInt32) : UInt32 :=
  match f with
  | .magic => liballocMagic
  | .realSize => remainder
  | .next => 0
  | .prev => 0
  | .splitLeft => tag
  | .splitRight => w
  | _ => v

/-- **Splitting.**  The new tag stands after the old one's bytes; it takes the rest of the space and
the neighbour on the right. -/
theorem carveTag_get (hT : boundaryTag.Separated T) {n : UInt32}
    (hn : n = tag + 32 + s.get tag .size) (htag : T tag) (hTn : T n) (hne : n ≠ tag)
    (hright : s.get tag .splitRight ≠ 0 → T (s.get tag .splitRight))
    (hnr : s.get tag .splitRight ≠ n) (hu : T u)
    (f : TagField) :
    (carveTag tag s).get u f =
      if u = n then newTagValue tag (s.get tag .realSize - 32 - s.get tag .size)
        (s.get tag .splitRight) f (s.get n f)
      else if u = tag ∧ f = .splitRight then n
      else if u = tag ∧ f = .realSize then
        s.get tag .realSize - (s.get tag .realSize - 32 - s.get tag .size)
      else if u = s.get tag .splitRight ∧ f = .splitLeft then n
      else s.get u f := by
  obtain ⟨rem, hrem⟩ : ∃ r, r = s.get tag .realSize - 32 - s.get tag .size := ⟨_, rfl⟩
  obtain ⟨s₁, h₁⟩ : ∃ t, t = ((((s.set n .magic liballocMagic).set n .realSize rem).set n .next 0).set
    n .prev 0).set n .splitLeft tag := ⟨_, rfl⟩
  have hs₁ : ∀ v g, T v → v ≠ n → s₁.get v g = s.get v g := by
    intro v g hv hvn
    rw [h₁, Liballoc.get_set hT _ hTn hv, if_neg fun h => hvn h.1, Liballoc.get_set hT _ hTn hv,
      if_neg fun h => hvn h.1, Liballoc.get_set hT _ hTn hv, if_neg fun h => hvn h.1,
      Liballoc.get_set hT _ hTn hv, if_neg fun h => hvn h.1, Liballoc.get_set hT _ hTn hv,
      if_neg fun h => hvn h.1]
  obtain ⟨s₂, h₂⟩ : ∃ t, t = s₁.set n .splitRight (s₁.get tag .splitRight) := ⟨_, rfl⟩
  rw [hs₁ _ _ htag hne.symm] at h₂
  have hs₂ : ∀ v g, T v → v ≠ n → s₂.get v g = s.get v g := by
    intro v g hv hvn
    rw [h₂, Liballoc.get_set hT _ hTn hv, if_neg fun h => hvn h.1, hs₁ _ _ hv hvn]
  have hs₂n : ∀ g, s₂.get n g = newTagValue tag rem (s.get tag .splitRight) g (s.get n g) := by
    intro g
    rw [h₂, h₁, Liballoc.get_set hT _ hTn hTn, Liballoc.get_set hT _ hTn hTn,
      Liballoc.get_set hT _ hTn hTn, Liballoc.get_set hT _ hTn hTn, Liballoc.get_set hT _ hTn hTn,
      Liballoc.get_set hT _ hTn hTn]
    cases g <;> simp [newTagValue]
  have hright₂ : s₂.get n .splitRight = s.get tag .splitRight := hs₂n .splitRight
  obtain ⟨s₃, h₃⟩ : ∃ t, t = if s₂.get n .splitRight ≠ 0 then
    s₂.set (s₂.get n .splitRight) .splitLeft n else s₂ := ⟨_, rfl⟩
  have hs₃ : ∀ v g, T v → s₃.get v g =
      if v = s.get tag .splitRight ∧ g = .splitLeft then n else s₂.get v g := by
    intro v g hv
    rw [h₃, Liballoc.get_set_if hT s₂ (by rw [hright₂]; exact hright) hv, hright₂]
  have heq : carveTag tag s = ((s₃.set tag .splitRight n).set tag .realSize
      ((s₃.set tag .splitRight n).get tag .realSize - (s₃.set tag .splitRight n).get n .realSize)) := by
    subst h₃
    rw [← hs₁ _ _ htag hne.symm] at h₂
    subst h₂ h₁ hrem hn
    rfl
  have hreal : (s₃.set tag .splitRight n).get tag .realSize = s.get tag .realSize := by
    rw [Liballoc.get_set hT _ htag htag, if_neg fun h => absurd h.2 (by decide), hs₃ _ _ htag,
      if_neg fun h => absurd h.2 (by decide), hs₂ _ _ htag hne.symm]
  have hrealn : (s₃.set tag .splitRight n).get n .realSize = rem := by
    rw [Liballoc.get_set hT _ htag hTn, if_neg fun h => absurd h.2 (by decide), hs₃ _ _ hTn,
      if_neg fun h => absurd h.2 (by decide), hs₂n]
    rfl
  rw [heq, hreal, hrealn, Liballoc.get_set hT _ htag hu, Liballoc.get_set hT _ htag hu, hs₃ _ _ hu,
    ← hrem]
  by_cases hun : u = n
  · subst hun
    rw [if_pos rfl, if_neg fun h => hne h.1, if_neg fun h => hne h.1, if_neg fun h => hnr h.1.symm,
      hs₂n]
  · rw [if_neg hun, hs₂ _ _ hu hun]
    cases f <;> simp

/-! ### A new run's tag -/

theorem initNewTag_completePages (size : UInt32) :
    (initNewTag tag size s).completePages = s.completePages := rfl

theorem initNewTag_initialized (size : UInt32) :
    (initNewTag tag size s).initialized = s.initialized := rfl

theorem initNewTag_spec (hT : boundaryTag.Separated T) (htag : T tag) (hu : T u) (size : UInt32) :
    (initNewTag tag size s).index u = (if u = tag then -1 else s.index u) ∧
      ∀ f, f ≠ .index → (initNewTag tag size s).get u f =
        if u = tag then
          match f with
          | .magic => liballocMagic
          | .size => size
          | .realSize => pagesFor size * 4096
          | _ => 0
        else s.get u f := by
  constructor
  · simp only [initNewTag]
    rw [Liballoc.index_set hT _ htag hu (by decide), Liballoc.index_set hT _ htag hu (by decide),
      Liballoc.index_set hT _ htag hu (by decide), Liballoc.index_set hT _ htag hu (by decide),
      Liballoc.index_setIndex hT _ htag hu (by decide) (by decide),
      Liballoc.index_set hT _ htag hu (by decide), Liballoc.index_set hT _ htag hu (by decide),
      Liballoc.index_set hT _ htag hu (by decide)]
  · intro f hf
    simp only [initNewTag]
    rw [Liballoc.get_set hT _ htag hu, Liballoc.get_set hT _ htag hu, Liballoc.get_set hT _ htag hu,
      Liballoc.get_set hT _ htag hu, Liballoc.get_setIndex hT _ htag hu hf,
      Liballoc.get_set hT _ htag hu, Liballoc.get_set hT _ htag hu, Liballoc.get_set hT _ htag hu]
    by_cases hut : u = tag
    · cases f <;> simp [hut] at hf ⊢
    · simp [hut]

end Tags

end CometOS
