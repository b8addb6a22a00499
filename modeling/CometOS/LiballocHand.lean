import CometOS.LiballocMalloc

/-!
# The tag in hand

What `split_tag` and the end of `malloc` leave of the sizes of the tags, from what the tag in hand has
around it, and where the search of `malloc` ends.
-/

namespace CometOS

open ByteMemory LinkedList Loop Record Run Tiling Word32

/-- The fields that say where a tag's bytes end and what it is. -/
def SizeField (f : TagField) : Prop := f = .magic ∨ f = .size ∨ f = .realSize

/-- What the end of `malloc` leaves of the lists and the runs: a tag that it has made lies in the bytes
of the tag in hand, behind the block. -/
structure Finishes (T : UInt32 → Prop) (s : Liballoc) (t size : UInt32) (s' : Liballoc)
    (T' : UInt32 → Prop) (free' : ℤ → List UInt32) : Prop where
  lists : FreeLists s' T' free'
  separated : boundaryTag.Separated T'
  old : ∀ u, T u → T' u
  new : ∀ u, T' u → T u ∨ t.toNat + 32 + size.toNat ≤ u.toNat ∧
    u.toNat + 32 ≤ t.toNat + (s.get t .realSize).toNat
  index : ∀ u, T u → s'.index u = s.index u
  detached : ∀ u, T u → Detached s u → Detached s' u
  places : ∀ u, T u → u ≠ t → ∀ f, f = .realSize ∨ f = .splitLeft ∨ f = .splitRight →
    s'.get u f = s.get u f

/-- The tag that `malloc` takes: the first one with room in the list of the size. -/
def takenTag (s : Liballoc) (free : ℤ → List UInt32) (size : UInt32) : Option UInt32 :=
  (free (listIndex size.toNat)).find? fun t => size.toNat + 64 ≤ (s.get t .realSize).toNat

section Hand

variable {s : Liballoc} {held : List PageRun} {tags : UInt32 → List UInt32} {free : ℤ → List UInt32}
  {t u size : UInt32} {T : UInt32 → Prop}

/-! ### Splitting -/

/-- **`split_tag`** changes one size field of the tags there were: the tag in hand keeps its header
and the size asked for. -/
theorem splitTag_get (h : InHand T s t) (hsize : s.get t .size = size)
    (hroom : size.toNat + 64 ≤ (s.get t .realSize).toNat) (hu : T u) {f : TagField}
    (hf : SizeField f) :
    (splitTag t s).2.get u f = if u = t ∧ f = .realSize then size + 32 else s.get u f := by
  have hreal : s.get t .realSize - (s.get t .realSize - 32 - size) = size + 32 := by grind
  have e := splitTag_effect h hsize hroom
  rcases hf with rfl | rfl | rfl
  · rw [e.get_kept hu (Or.inl rfl), if_neg fun hc => absurd hc.2 (by decide)]
  · rw [e.get_kept hu (Or.inr rfl), if_neg fun hc => absurd hc.2 (by decide)]
  · rw [e.splits_inserted.realSize u (Or.inl hu), if_neg (e.ne hu), hreal]
    simp

/-- The tag in hand after `tag->size = size`. -/
theorem InHand.setSize (h : InHand T s t) (size : UInt32) : InHand T (s.set t .size size) t ∧
    (s.set t .size size).get t .size = size ∧
    (s.set t .size size).get t .realSize = s.get t .realSize := by
  have hset : ∀ f, (s.set t .size size).get t f =
      if t = t ∧ f = .size then size else s.get t f :=
    fun f => Liballoc.get_set h.separated s h.tag h.tag .size f size
  have hreal : (s.set t .size size).get t .realSize = s.get t .realSize := by
    rw [hset, if_neg fun hc => absurd hc.2 (by decide)]
  have hright : (s.set t .size size).get t .splitRight = s.get t .splitRight := by
    rw [hset, if_neg fun hc => absurd hc.2 (by decide)]
  refine ⟨⟨h.separated, h.tag, h.head, ?_, ?_, ?_⟩, by rw [hset, if_pos ⟨rfl, rfl⟩], hreal⟩
  · rw [hright]
    exact h.right
  · rw [hreal]
    exact h.stop
  · rw [hreal]
    exact h.clear

/-- **The end of `malloc`** leaves the other tags' headers and sizes as they are, and gives the tag in
hand the size asked for, with room for it. -/
theorem mallocFinish_get (h : InHand T s t) (hroom : size.toNat + 32 ≤ (s.get t .realSize).toNat) :
    (∀ u, T u → u ≠ t → ∀ f, SizeField f → (mallocFinish t size s).2.get u f = s.get u f) ∧
      (mallocFinish t size s).2.get t .magic = s.get t .magic ∧
      (mallocFinish t size s).2.get t .size = size ∧
      size.toNat + 32 ≤ ((mallocFinish t size s).2.get t .realSize).toNat := by
  have hT := h.separated
  have hset : ∀ u, T u → ∀ f, (s.set t .size size).get u f =
      if u = t ∧ f = .size then size else s.get u f :=
    fun u hu f => Liballoc.get_set hT s h.tag hu .size f size
  obtain ⟨h₁, hsize, hreal⟩ := h.setSize size
  have hkept : ∀ u, T u → u ≠ t → ∀ f, (s.set t .size size).get u f = s.get u f := by
    intro u hu hut f
    rw [hset u hu, if_neg fun hc => hut hc.1]
  have hmagic : (s.set t .size size).get t .magic = s.get t .magic := by
    rw [hset t h.tag, if_neg fun hc => absurd hc.2 (by decide)]
  rcases mallocFinish_cases t size s with heq | ⟨⟨hpos, _⟩, heq⟩
  · rw [heq]
    exact ⟨fun u hu hut f _ => hkept u hu hut f, hmagic, hsize, by rw [hreal]; exact hroom⟩
  · rw [heq]
    rw [hreal] at hpos
    have hfit := splitFit hroom hpos
    have hsplit := fun u hu f hf => splitTag_get (u := u) (f := f) h₁ hsize
      (by rw [hreal]; exact hfit) hu hf
    refine ⟨fun u hu hut f hf => ?_, ?_, ?_, ?_⟩
    · rw [hsplit u hu f hf, if_neg fun hc => hut hc.1, hkept u hu hut]
    · rw [hsplit t h.tag _ (Or.inl rfl), if_neg fun hc => absurd hc.2 (by decide), hmagic]
    · rw [hsplit t h.tag _ (Or.inr (Or.inl rfl)), if_neg fun hc => absurd hc.2 (by decide), hsize]
    · have hlt := (s.get t .realSize).toNat_lt
      rw [hsplit t h.tag _ (Or.inr (Or.inr rfl)), if_pos ⟨rfl, rfl⟩, toNat_add_of_lt] <;>
        simp only [UInt32.reduceToNat] <;> omega

/-- **The end of `malloc`** on the last tag of a run: what is split off goes to its list, and the other
tags keep their places. -/
theorem mallocFinish_lists (h : InHand T s t) (hF : FreeLists s T free)
    (hright : s.get t .splitRight = 0) (hroom : size.toNat + 32 ≤ (s.get t .realSize).toNat) :
    ∃ T' free', Finishes T s t size (mallocFinish t size s).2 T' free' := by
  have hset : ∀ u, T u → ∀ f, f ≠ .size → (s.set t .size size).get u f = s.get u f := by
    intro u hu f hf
    rw [Liballoc.get_set h.separated s h.tag hu, if_neg fun hc => hf hc.2]
  have hindex : ∀ u, T u → (s.set t .size size).index u = s.index u :=
    fun u hu => Liballoc.index_set h.separated s h.tag hu (by decide) size
  have hdet : ∀ u, T u → Detached s u → Detached (s.set t .size size) u := by
    rintro u hu ⟨hidx, hnext, hprev⟩
    exact ⟨by rw [hindex u hu, hidx], by rw [hset u hu _ (by decide), hnext],
      by rw [hset u hu _ (by decide), hprev]⟩
  have hF₁ : FreeLists (s.set t .size size) T free := hF.congr rfl
    (fun u hu _ => ⟨hu, hindex u hu, hset u hu _ (by decide), hset u hu _ (by decide)⟩)
    fun u hu _ => ⟨hu, hindex u hu⟩
  obtain ⟨h₁, hsize, hreal⟩ := h.setSize size
  rcases mallocFinish_cases t size s with heq | ⟨⟨hpos, _⟩, heq⟩
  · rw [heq]
    refine ⟨T, free, hF₁, h.separated, fun _ hu => hu, fun _ hu => Or.inl hu, hindex, hdet,
      fun u hu _ f hf => hset u hu f ?_⟩
    rcases hf with rfl | rfl | rfl <;> decide
  · rw [heq]
    rw [hreal] at hpos
    have hfit := splitFit hroom hpos
    have hnew := (h.toNat_new hfit).1
    have e := splitTag_effect h₁ hsize (by rw [hreal]; exact hfit)
    refine ⟨_, _, e.lists hF₁, e.separated, fun _ hu => Or.inl hu, ?_, ?_, ?_, ?_⟩
    · rintro u (hu | rfl)
      · exact Or.inl hu
      · exact Or.inr (by omega)
    · intro u hu
      rw [e.index hu, hindex u hu]
    · exact fun u hu hd => e.detached hF₁ hu (hdet u hu hd)
    · have hnull : (s.set t .size size).get t .splitRight = 0 := by
        rw [hset t h.tag _ (by decide), hright]
      rintro u hu hut f (rfl | rfl | rfl)
      · rw [e.splits_inserted.realSize u (Or.inl hu), if_neg (e.ne hu), if_neg hut,
          hset u hu _ (by decide)]
      · rw [e.splits_inserted.splitLeft u (Or.inl hu), if_neg (e.ne hu), hnull,
          if_neg (h.separated.ne_zero hu), hset u hu _ (by decide)]
      · rw [e.splits_inserted.splitRight u (Or.inl hu), if_neg (e.ne hu), if_neg hut,
          hset u hu _ (by decide)]

/-! ### In a heap in order -/

/-- On the list of the size the test of `malloc` is right: the sum wraps only for sizes whose list is
empty. -/
theorem fits_iff (h : HeapShape s held tags free) (ht : t ∈ free (listIndex size.toNat)) :
    size + 32 ≤ s.get t .realSize - 32 ↔ size.toNat + 64 ≤ (s.get t .realSize).toNat := by
  obtain ⟨hi8, _⟩ := listIndex_bounds (n := size.toNat) size.toNat_lt
  obtain ⟨hT, hidx⟩ := (h.lists.mem _ (by omega) t).1 ht
  have h32 : (32 : UInt32).toNat = 32 := rfl
  have hheader := h.runs.header t hT
  have hmax := (h.runs.realSize_le hT).1
  have hlist : listIndex size.toNat = listIndex ((s.get t .realSize).toNat - 32) := by
    rcases h.kind t hT with hdet | hkind
    · have := hdet.1
      omega
    · rw [← hidx, hkind]
  have hsmall : size.toNat < 2 ^ 31 := by
    by_contra hlarge
    have h31 : 31 ≤ Nat.log2 size.toNat := (Nat.le_log2 (by omega)).2 (by omega)
    have hlt : Nat.log2 ((s.get t .realSize).toNat - 32) < 31 := by
      by_cases h0 : (s.get t .realSize).toNat - 32 = 0
      · rw [h0]
        decide
      · exact (Nat.log2_lt h0).2 (by omega)
    rw [listIndex, listIndex] at hlist
    omega
  rw [UInt32.le_iff_toNat_le, toNat_add_of_lt (by omega), toNat_sub_of_le (by omega), h32]
  omega

theorem takenTag_eq_some (h : HeapShape s held tags free) (ht : takenTag s free size = some t) :
    TagIn held tags t ∧ s.index t = listIndex size.toNat ∧
      size.toNat + 64 ≤ (s.get t .realSize).toNat := by
  obtain ⟨hi8, _⟩ := listIndex_bounds (n := size.toNat) size.toNat_lt
  obtain ⟨hT, hidx⟩ := (h.lists.mem _ (by omega) t).1 (List.mem_of_find?_eq_some ht)
  have hroom := List.find?_some ht
  rw [decide_eq_true_iff] at hroom
  exact ⟨hT, hidx, hroom⟩

theorem takenTag_eq_none : takenTag s free size = none ↔
    ¬ ∃ t ∈ free (listIndex size.toNat), size.toNat + 64 ≤ (s.get t .realSize).toNat := by
  simp only [takenTag, List.find?_eq_none, decide_eq_true_iff, not_exists, not_and]

/-- **The search of `malloc`** comes out at that tag, or at none. -/
theorem mallocSearch_taken (h : HeapShape s held tags free) (size : UInt32) :
    mallocSearch size s (s.freePages (listIndex size.toNat)) =
      some ((takenTag s free size).getD 0) := by
  obtain ⟨hi8, _⟩ := listIndex_bounds (n := size.toNat) size.toNat_lt
  have hfind : (free (listIndex size.toNat)).find? (fun t => size + 32 ≤ s.get t .realSize - 32) =
      takenTag s free size := by
    refine List.find?_congr fun t ht => ?_
    rw [decide_eq_decide]
    exact fits_iff h ht
  rw [mallocSearch_eq h.lists h.runs.separated (by omega), hfind]

end Hand

end CometOS
