import CometOS.LiballocHand

/-!
# The bytes that are not tags

`malloc` and `free` write the headers of tags and nothing else.  For each helper of `liballoc.c`, the
bytes outside the tags `T` that it works on are afterwards what they were before.
-/

namespace CometOS

open ByteMemory LinkedList Loop Record Run Word32

/-- The byte is in no header of the tags. -/
def Outside (T : UInt32 → Prop) (a : UInt32) : Prop := ∀ u, T u → 32 ≤ (a - u).toNat

/-- The bytes outside the tags are the same. -/
def KeepsBytes (T : UInt32 → Prop) (s s' : Liballoc) : Prop := ∀ a, Outside T a → s'.mem a = s.mem a

section Bytes

variable {T : UInt32 → Prop} {s s₁ s₂ s₃ : Liballoc} {t u x l d size : UInt32}

namespace KeepsBytes

theorem refl : KeepsBytes T s s := fun _ _ => rfl

theorem trans (h : KeepsBytes T s₁ s₂) (h' : KeepsBytes T s₂ s₃) : KeepsBytes T s₁ s₃ :=
  fun a ha => (h' a ha).trans (h a ha)

theorem of_mem (h : s₂.mem = s₁.mem) : KeepsBytes T s₁ s₂ := fun _ _ => by rw [h]

theorem set (ht : T t) (f : TagField) (v : UInt32) : KeepsBytes T s (s.set t f v) :=
  fun _ ha => boundaryTag.set_of_far s.mem f v (ha t ht)

theorem set_if (ht : t ≠ 0 → T t) (f : TagField) (v : UInt32) :
    KeepsBytes T s (if t ≠ 0 then s.set t f v else s) := by
  by_cases h0 : t = 0
  · rw [if_neg (not_not.2 h0)]
    exact refl
  · rw [if_pos h0]
    exact set (ht h0) f v

end KeepsBytes

open KeepsBytes

/-! ### The lists -/

theorem removeTag_bytes (hT : boundaryTag.Separated T) (ht : T t) (hl : ListNeighbours T s t) :
    KeepsBytes T s (removeTag t s) := by
  obtain ⟨s₀, h₀⟩ : ∃ c, c = if s.freePages (s.index t) = t then
      { s with freePages := Function.update s.freePages (s.index t) (s.get t .next) }
    else s := ⟨_, rfl⟩
  have hmem : s₀.mem = s.mem := by
    rw [h₀]
    split <;> rfl
  have hget : ∀ f, s₀.get t f = s.get t f := by
    intro f
    rw [Liballoc.get, hmem]
    rfl
  have hprev : s₀.get t .prev ≠ 0 → T (s₀.get t .prev) := by
    rw [hget]
    exact hl.prev
  obtain ⟨s₁, h₁⟩ : ∃ c, c = if s₀.get t .prev ≠ 0 then
      s₀.set (s₀.get t .prev) .next (s₀.get t .next) else s₀ := ⟨_, rfl⟩
  have hnext : s₁.get t .next = s.get t .next := by
    rw [h₁, Liballoc.get_set_if hT s₀ hprev ht, hget, hget, if_neg fun h => hl.prev_ne h.1.symm]
  have hnextT : s₁.get t .next ≠ 0 → T (s₁.get t .next) := by
    rw [hnext]
    exact hl.next
  have heq : removeTag t s = (((if s₁.get t .next ≠ 0 then
      s₁.set (s₁.get t .next) .prev (s₁.get t .prev) else s₁).set t .next 0).set t .prev 0).setIndex t
      (-1) := by
    subst h₁ h₀
    rfl
  have hk₁ : KeepsBytes T s₀ s₁ := by
    rw [h₁]
    exact set_if hprev _ _
  rw [heq]
  exact ((((of_mem hmem).trans hk₁).trans (set_if hnextT _ _)).trans (set ht _ _)).trans
    ((set ht _ _).trans (set ht _ _))

theorem insertTag_bytes {i r : ℤ} (hr : insertIndex t i s = r) (ht : T t)
    (hhead : s.freePages r ≠ 0 → T (s.freePages r)) : KeepsBytes T s (insertTag t i s) := by
  obtain ⟨s₁, h₁⟩ : ∃ c, c = if s.freePages r ≠ 0 then
      ((s.setIndex t r).set (s.freePages r) .prev t).set t .next (s.freePages r)
    else s.setIndex t r := ⟨_, rfl⟩
  have hmem : (insertTag t i s).mem = s₁.mem := by
    subst h₁ hr
    rfl
  have hk : KeepsBytes T s s₁ := by
    have hindex : KeepsBytes T s (s.setIndex t r) := set ht _ _
    rw [h₁]
    split
    · rename_i h0
      exact (hindex.trans (set (hhead h0) _ _)).trans (set ht _ _)
    · exact hindex
  exact hk.trans (of_mem hmem)

/-! ### Melting and splitting -/

theorem meldTag_bytes (hT : boundaryTag.Separated T) (hl : T l) (hd : T d) (hne : l ≠ d)
    (hright : s.get d .splitRight ≠ 0 → T (s.get d .splitRight)) :
    KeepsBytes T s (meldTag l d s) := by
  obtain ⟨s₁, h₁⟩ : ∃ c, c = s.set l .realSize (s.get l .realSize + s.get d .realSize) := ⟨_, rfl⟩
  obtain ⟨s₂, h₂⟩ : ∃ c, c = s₁.set l .splitRight (s₁.get d .splitRight) := ⟨_, rfl⟩
  have hsame : s₂.get d .splitRight = s.get d .splitRight := by
    rw [h₂, Liballoc.get_set hT _ hl hd, if_neg fun h => hne h.1.symm, h₁,
      Liballoc.get_set hT _ hl hd, if_neg fun h => hne h.1.symm]
  have heq : meldTag l d s = if s₂.get d .splitRight ≠ 0 then
      s₂.set (s₂.get d .splitRight) .splitLeft l else s₂ := by
    subst h₂ h₁
    rfl
  have hk : KeepsBytes T s s₂ := by
    rw [h₂, h₁]
    exact (set hl _ _).trans (set hl _ _)
  rw [heq]
  exact hk.trans (set_if (by rw [hsame]; exact hright) _ _)

/-- `n` is the new tag. -/
theorem carveTag_bytes {n : UInt32} (hT : boundaryTag.Separated T) (hn : n = t + 32 + s.get t .size)
    (ht : T t) (hTn : T n) (hne : n ≠ t) (hright : s.get t .splitRight ≠ 0 → T (s.get t .splitRight)) :
    KeepsBytes T s (carveTag t s) := by
  obtain ⟨s₁, h₁⟩ : ∃ c, c = ((((s.set n .magic liballocMagic).set n .realSize
    (s.get t .realSize - 32 - s.get t .size)).set n .next 0).set n .prev 0).set n .splitLeft t :=
    ⟨_, rfl⟩
  have hk₁ : KeepsBytes T s s₁ := by
    rw [h₁]
    exact ((((set hTn _ _).trans (set hTn _ _)).trans (set hTn _ _)).trans (set hTn _ _)).trans
      (set hTn _ _)
  have hsame : s₁.get t .splitRight = s.get t .splitRight := by
    rw [h₁, Liballoc.get_set hT _ hTn ht, if_neg fun h => hne h.1.symm,
      Liballoc.get_set hT _ hTn ht, if_neg fun h => hne h.1.symm, Liballoc.get_set hT _ hTn ht,
      if_neg fun h => hne h.1.symm, Liballoc.get_set hT _ hTn ht, if_neg fun h => hne h.1.symm,
      Liballoc.get_set hT _ hTn ht, if_neg fun h => hne h.1.symm]
  obtain ⟨s₂, h₂⟩ : ∃ c, c = s₁.set n .splitRight (s₁.get t .splitRight) := ⟨_, rfl⟩
  have hright₂ : s₂.get n .splitRight = s.get t .splitRight := by
    rw [h₂, Liballoc.get_set hT _ hTn hTn, if_pos ⟨rfl, rfl⟩, hsame]
  obtain ⟨s₃, h₃⟩ : ∃ c, c = if s₂.get n .splitRight ≠ 0 then
      s₂.set (s₂.get n .splitRight) .splitLeft n else s₂ := ⟨_, rfl⟩
  have hk₃ : KeepsBytes T s₂ s₃ := by
    rw [h₃]
    exact set_if (by rw [hright₂]; exact hright) _ _
  have heq : carveTag t s = (s₃.set t .splitRight n).set t .realSize
      ((s₃.set t .splitRight n).get t .realSize - (s₃.set t .splitRight n).get n .realSize) := by
    subst h₃ h₂ h₁ hn
    rfl
  rw [heq]
  have hk₂ : KeepsBytes T s₁ s₂ := by
    rw [h₂]
    exact set hTn _ _
  exact (((hk₁.trans hk₂).trans hk₃).trans (set ht _ _)).trans (set ht _ _)

/-! ### Allocation -/

theorem initNewTag_bytes (ht : T t) : KeepsBytes T s (initNewTag t size s) :=
  (((((((set ht _ _).trans (set ht _ _)).trans (set ht _ _)).trans (set ht _ _)).trans
    (set ht _ _)).trans (set ht _ _)).trans (set ht _ _)).trans (set ht _ _)

theorem takeTag_mem (i : ℤ) : (takeTag t i s).mem = (removeTag t s).mem := by
  rw [takeTag]
  generalize removeTag t s = s'
  split <;> rfl

theorem splitTag_bytes (h : InHand T s t) (hsize : s.get t .size = size)
    (hroom : size.toNat + 64 ≤ (s.get t .realSize).toNat) :
    KeepsBytes (fun u => T u ∨ u = t + 32 + size) s (splitTag t s).2 := by
  have e := splitTag_effect h hsize hroom
  have hright : s.get t .splitRight ≠ 0 →
      T (s.get t .splitRight) ∨ s.get t .splitRight = t + 32 + size := fun h0 => Or.inl (h.right h0)
  have hcarve := carveTag_bytes e.separated (hsize ▸ rfl) (Or.inl h.tag) (Or.inr rfl)
    (e.ne h.tag).symm hright
  rw [splitTag_eq, hsize]
  refine hcarve.trans (insertTag_bytes (r := insertIndex (t + 32 + size) (-1) (carveTag t s)) rfl
    (Or.inr rfl) fun h0 => Or.inl ?_)
  have hi : 0 ≤ insertIndex (t + 32 + size) (-1) (carveTag t s) := by
    rw [insertIndex, if_pos (by decide), atLeastMinexp_getexp]
    have := (listIndex_bounds
      (n := ((carveTag t s).get (t + 32 + size) .realSize - 32).toNat) (UInt32.toNat_lt _)).1
    omega
  rw [carveTag_freePages] at h0 ⊢
  exact h.head _ hi h0

/-- **The end of `malloc`** writes the tags there are, and inside the bytes of the tag in hand. -/
theorem mallocFinish_bytes (h : InHand T s t) (hroom : size.toNat + 32 ≤ (s.get t .realSize).toNat)
    {a : UInt32} (hout : Outside T a)
    (hfar : a.toNat < t.toNat ∨ t.toNat + (s.get t .realSize).toNat ≤ a.toNat) :
    (mallocFinish t size s).2.mem a = s.mem a := by
  have hset : (s.set t .size size).mem a = s.mem a := set h.tag _ _ a hout
  obtain ⟨h₁, hsize, hreal⟩ := h.setSize size
  rcases mallocFinish_cases t size s with heq | ⟨⟨hpos, _⟩, heq⟩
  · rw [heq]
    exact hset
  · rw [heq]
    rw [hreal] at hpos
    have hfit := splitFit hroom hpos
    have hnew := (h.toNat_new hfit).1
    have hstop := h.stop
    refine (splitTag_bytes h₁ hsize (by rw [hreal]; exact hfit) a ?_).trans hset
    rintro u (hu | rfl)
    · exact hout u hu
    · exact far_of_outside (by omega) (by omega)

end Bytes

end CometOS
