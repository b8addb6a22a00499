import CometOS.LiballocShape

/-!
# Splitting the tag in hand

`split_tag` cuts the end off the tag in hand and puts it into the list of its size.  What it does to
the fields (`SplitEffect`) follows from what the tag in hand has around it (`InHand`).  This asks for
less than a heap in order, and so holds for runs of any length; that a heap in order stays one follows
from the effect.
-/

namespace CometOS

open ByteMemory LinkedList Loop Record Run Tiling Word32

/-- What the tag in hand must have around it: the heads of the lists and its neighbour are tags, and
no tag starts inside its bytes. -/
structure InHand (T : UInt32 → Prop) (s : Liballoc) (t : UInt32) : Prop where
  separated : boundaryTag.Separated T
  tag : T t
  head : ∀ i, 0 ≤ i → s.freePages i ≠ 0 → T (s.freePages i)
  right : s.get t .splitRight ≠ 0 → T (s.get t .splitRight)
  stop : t.toNat + (s.get t .realSize).toNat ≤ 2 ^ 32
  clear : ∀ u, T u → u ≠ t → u.toNat + 32 ≤ t.toNat ∨
    t.toNat + (s.get t .realSize).toNat ≤ u.toNat ∧ u.toNat + 32 ≤ 2 ^ 32

/-- Tag `n`, cut off the end of `t` with `rem` bytes by `s₁`, is in its list by `s'`. -/
structure SplitEffect (T : UInt32 → Prop) (s s₁ s' : Liballoc) (t n rem : UInt32) : Prop where
  separated : boundaryTag.Separated fun u => T u ∨ u = n
  notTag : ¬ T n
  splits : Splits (fun u => T u ∨ u = n) s s₁ t n rem
  keeps : ∀ u, T u → ∀ f, f ≠ .splitRight ∧ f ≠ .realSize ∧ f ≠ .splitLeft →
    s₁.get u f = s.get u f
  new : ∀ f, s₁.get n f = newTagValue t rem (s.get t .splitRight) f (s.get n f)
  freePages : s₁.freePages = s.freePages
  inserts : Inserts (fun u => T u ∨ u = n) s₁ s' n (listIndex (rem.toNat - 32))
  same : ∀ u, T u ∨ u = n → ∀ f, f ≠ .index ∧ f ≠ .next ∧ f ≠ .prev → s'.get u f = s₁.get u f
  completePages : s'.completePages = s.completePages

section Split

variable {s s₁ s' : Liballoc} {held : List PageRun} {tags : UInt32 → List UInt32}
  {free : ℤ → List UInt32} {r : PageRun} {t u n rem size : UInt32} {T : UInt32 → Prop}

/-! ### What `split_tag` does -/

/-- A tag inside the bytes of another one, behind its header, is apart from every tag. -/
theorem separated_inside (hT : boundaryTag.Separated T) (ht : T t) {len : ℕ} {n : UInt32}
    (h1 : t.toNat + 32 ≤ n.toNat) (h2 : n.toNat + 32 ≤ t.toNat + len)
    (hstop : t.toNat + len ≤ 2 ^ 32)
    (hclear : ∀ u, T u → u ≠ t → u.toNat + 32 ≤ t.toNat ∨
      t.toNat + len ≤ u.toNat ∧ u.toNat + 32 ≤ 2 ^ 32) :
    (boundaryTag.Separated fun u => T u ∨ u = n) ∧ ¬ T n := by
  have hapart : ∀ a, T a → Apart a 32 n 32 := by
    intro a ha
    by_cases hat : a = t
    · subst hat
      exact apart_of_le (by decide) h1 (by omega)
    · rcases hclear a ha hat with hlt | ⟨hgt, hend⟩
      · exact apart_of_le (by decide) (by omega) (by omega)
      · exact (apart_of_le (by decide) (by omega) hend).symm
  refine ⟨hT.insert ?_ hapart, fun hn => ?_⟩
  · rintro rfl
    rw [show (0 : UInt32).toNat = 0 from rfl] at h1
    omega
  · have hnt : n ≠ t := by
      rintro rfl
      omega
    rcases hclear n hn hnt with hlt | hgt
    · omega
    · omega

/-- The new tag is none of the others, and not null. -/
theorem ne_new (hT' : boundaryTag.Separated fun u => T u ∨ u = n) (hnot : ¬ T n)
    (hu : u ≠ 0 → T u) : u ≠ n := by
  rintro rfl
  exact hnot (hu (hT'.ne_zero (Or.inr rfl)))

/-- Where the new tag stands, and what it gets. -/
theorem InHand.toNat_new (h : InHand T s t)
    (hroom : size.toNat + 64 ≤ (s.get t .realSize).toNat) :
    (t + 32 + size).toNat = t.toNat + 32 + size.toNat ∧
      (s.get t .realSize - 32 - size).toNat = (s.get t .realSize).toNat - 32 - size.toNat := by
  have h32 : (32 : UInt32).toNat = 32 := rfl
  have hstop := h.stop
  have hlt : (t + 32).toNat = t.toNat + 32 := toNat_add_of_lt (by omega)
  have hsub : (s.get t .realSize - 32).toNat = (s.get t .realSize).toNat - 32 :=
    toNat_sub_of_le (by omega)
  exact ⟨by rw [toNat_add_of_lt (by omega), hlt], by rw [toNat_sub_of_le (by omega), hsub]⟩

/-- **`split_tag`**, when the rest of the tag in hand has room for a header. -/
theorem splitTag_effect (h : InHand T s t) (hsize : s.get t .size = size)
    (hroom : size.toNat + 64 ≤ (s.get t .realSize).toNat) :
    SplitEffect T s (carveTag t s) (splitTag t s).2 t (t + 32 + size)
      (s.get t .realSize - 32 - size) := by
  have h32 : (32 : UInt32).toNat = 32 := rfl
  have hstop := h.stop
  obtain ⟨hnNat, hremNat⟩ := h.toNat_new hroom
  have heq : (splitTag t s).2 = insertTag (t + 32 + size) (-1) (carveTag t s) := by
    rw [splitTag_eq, hsize]
  rw [heq]
  obtain ⟨n, hn⟩ : ∃ n, n = t + 32 + size := ⟨_, rfl⟩
  obtain ⟨rem, hrem⟩ : ∃ m, m = s.get t .realSize - 32 - size := ⟨_, rfl⟩
  rw [← hn] at hnNat ⊢
  rw [← hrem] at hremNat ⊢
  obtain ⟨hT', hnot⟩ :=
    separated_inside h.separated h.tag (n := n) (by omega) (by omega) hstop h.clear
  have hne : ∀ v, T v → v ≠ n := fun v hv => ne_new hT' hnot fun _ => hv
  have hrn : s.get t .splitRight ≠ n := ne_new hT' hnot h.right
  have hget := fun v hv f => carveTag_get (u := v) hT' (hsize ▸ hn) (Or.inl h.tag) (Or.inr rfl)
    (hne t h.tag).symm (fun h0 => Or.inl (h.right h0)) hrn hv f
  rw [hsize, ← hrem] at hget
  have hnew : ∀ f, (carveTag t s).get n f =
      newTagValue t rem (s.get t .splitRight) f (s.get n f) := by
    intro f
    rw [hget n (Or.inr rfl), if_pos rfl]
  -- the list the new tag goes to
  have hsub : (rem - 32).toNat = rem.toNat - 32 := toNat_sub_of_le (by omega)
  have hins : insertIndex n (-1) (carveTag t s) = listIndex (rem.toNat - 32) := by
    rw [insertIndex, if_pos (by decide), hnew, ← hsub]
    exact atLeastMinexp_getexp _
  obtain ⟨hi8, hi32⟩ := listIndex_bounds (n := rem.toNat - 32) (by omega)
  have hhead : (carveTag t s).freePages (listIndex (rem.toNat - 32)) ≠ 0 →
      T ((carveTag t s).freePages (listIndex (rem.toNat - 32))) := by
    rw [carveTag_freePages]
    exact h.head _ (by omega)
  have hheadn : (carveTag t s).freePages (listIndex (rem.toNat - 32)) ≠ n := ne_new hT' hnot hhead
  constructor
  · exact hT'
  · exact hnot
  · constructor
    · intro u hu
      rw [hget u hu]
      simp [newTagValue]
    · intro u hu
      rw [hget u hu]
      simp [newTagValue]
    · intro u hu
      rw [hget u hu]
      simp [newTagValue]
  · rintro u hu f ⟨h1, h2, h3⟩
    rw [hget u (Or.inl hu), if_neg (hne u hu), if_neg fun hc => h1 hc.2, if_neg fun hc => h2 hc.2,
      if_neg fun hc => h3 hc.2]
  · exact hnew
  · exact carveTag_freePages
  · exact insertTag_inserts hT' hins (by omega) hi32 (Or.inr rfl) (fun h0 => Or.inl (hhead h0))
      hheadn (hnew .next)
  · exact fun u hu f hf => insertTag_get_of_ne hT' hins (by omega) hi32 (Or.inr rfl)
      (fun h0 => Or.inl (hhead h0)) hheadn (hnew .next) hu hf
  · rw [insertTag_completePages, carveTag_completePages]

/-! ### What it does to the fields -/

theorem listIndex_rest (rem : UInt32) : 0 ≤ listIndex (rem.toNat - 32) := by
  have hlt := rem.toNat_lt
  have := (listIndex_bounds (n := rem.toNat - 32) (by omega)).1
  omega

namespace SplitEffect

variable (e : SplitEffect T s s₁ s' t n rem)
include e

theorem ne (hu : T u) : u ≠ n := by
  rintro rfl
  exact e.notTag hu

theorem carve_index (hu : T u) : s₁.index u = s.index u := by
  rw [Liballoc.index, e.keeps u hu _ (by decide)]
  rfl

theorem index (hu : T u) : s'.index u = s.index u := by
  rw [e.inserts.index u (Or.inl hu), if_neg (e.ne hu), e.carve_index hu]

theorem index_new : s'.index n = listIndex (rem.toNat - 32) := by
  rw [e.inserts.index n (Or.inr rfl), if_pos rfl]

theorem get_kept (hu : T u) {f : TagField} (hf : f = .magic ∨ f = .size) :
    s'.get u f = s.get u f := by
  rw [e.same u (Or.inl hu) f (by rcases hf with rfl | rfl <;> decide),
    e.keeps u hu f (by rcases hf with rfl | rfl <;> decide)]

theorem magic_new : s'.get n .magic = liballocMagic := by
  rw [e.same n (Or.inr rfl) _ (by decide), e.new .magic]
  rfl

/-- The insertion leaves the split as it is. -/
theorem splits_inserted : Splits (fun u => T u ∨ u = n) s s' t n rem where
  realSize u hu := by rw [e.same u hu _ (by decide), e.splits.realSize u hu]
  splitRight u hu := by rw [e.same u hu _ (by decide), e.splits.splitRight u hu]
  splitLeft u hu := by rw [e.same u hu _ (by decide), e.splits.splitLeft u hu]

theorem carve_lists (hF : FreeLists s T free) : FreeLists s₁ T free :=
  hF.congr e.freePages
    (fun u hu _ => ⟨hu, e.carve_index hu, e.keeps u hu _ (by decide), e.keeps u hu _ (by decide)⟩)
    fun _ hu _ => ⟨hu, e.carve_index hu⟩

theorem lists (hF : FreeLists s T free) : FreeLists s' (fun u => T u ∨ u = n)
    (Function.update free (listIndex (rem.toNat - 32)) (n :: free (listIndex (rem.toNat - 32)))) :=
  (e.carve_lists hF).insert e.separated (fun _ => Iff.rfl) (listIndex_rest rem)
    (fun hc => e.notTag hc.1) (e.new .prev) e.inserts

theorem detached (hF : FreeLists s T free) (hu : T u) (hd : Detached s u) : Detached s' u := by
  refine e.inserts.detached (e.carve_lists hF) e.separated (listIndex_rest rem) (Or.inl hu) (e.ne hu)
    ⟨?_, ?_, ?_⟩
  · rw [e.carve_index hu, hd.1]
  · rw [e.keeps u hu _ (by decide), hd.2.1]
  · rw [e.keeps u hu _ (by decide), hd.2.2]

/-- The new tag is not a whole run. -/
theorem wholeRun_new (ht : T t) : wholeRun s' n = false := by
  rw [Bool.eq_false_iff]
  intro hw
  have h0 := (wholeRun_iff.1 hw).1
  rw [e.splits_inserted.splitLeft n (Or.inr rfl), if_pos rfl] at h0
  exact e.separated.ne_zero (Or.inl ht) h0

end SplitEffect

/-! ### In a heap in order -/

/-- The lists start with tags. -/
theorem HeapShape.inHand_head (h : HeapShape s held tags free) {i : ℤ} (hi : 0 ≤ i)
    (h0 : s.freePages i ≠ 0) : TagIn held tags (s.freePages i) :=
  ((h.lists.mem i hi _).1 (h.lists.head_mem hi h0)).1

/-- In a heap in order every tag has what it must have around it. -/
theorem HeapShape.inHand (h : HeapShape s held tags free) (ht : TagIn held tags t) :
    InHand (TagIn held tags) s t where
  separated := h.runs.separated
  tag := ht
  head _ hi h0 := h.inHand_head hi h0
  right h0 := by
    obtain ⟨r, hr, htr⟩ := ht
    exact ⟨r, hr, (h.runs.splitRight_mem hr htr h0).1⟩
  stop := (h.runs.realSize_le ht).2
  clear u hu hut := by
    have hheader := h.runs.header u hu
    have hle := (h.runs.realSize_le hu).2
    rcases h.runs.disjoint ht hu (Ne.symm hut) with hlt | hgt
    · exact Or.inr ⟨hlt, by omega⟩
    · exact Or.inl (by omega)

/-- No tag but the one in hand becomes or stops being a whole run. -/
theorem SplitEffect.wholeRun (e : SplitEffect (TagIn held tags) s s₁ s' t n rem)
    (h : RunsOk s held tags) (ht : TagIn held tags t) (hu : TagIn held tags u) (hut : u ≠ t) :
    wholeRun s' u = wholeRun s u := by
  have hr : s'.get u .splitRight = s.get u .splitRight := by
    rw [e.splits_inserted.splitRight u (Or.inl hu), if_neg (e.ne hu), if_neg hut]
  have hl : s'.get u .splitLeft = if u = s.get t .splitRight then n else s.get u .splitLeft := by
    rw [e.splits_inserted.splitLeft u (Or.inl hu), if_neg (e.ne hu)]
  by_cases hur : u = s.get t .splitRight
  · obtain ⟨r, hr, htr⟩ := ht
    have h0 : s.get t .splitRight ≠ 0 := by
      rw [← hur]
      exact h.ne_zero hu
    have hback := (h.splitRight_mem hr htr h0).2
    rw [← hur] at hback
    rw [Bool.eq_iff_iff, wholeRun_iff, wholeRun_iff, hl, if_pos hur, hback]
    exact iff_of_false (fun hw => e.separated.ne_zero (Or.inr rfl) hw.1)
      fun hw => h.ne_zero ⟨r, hr, htr⟩ hw.1
  · rw [if_neg hur] at hl
    exact wholeRun_congr hl hr

/-- So the lists hold as many whole runs as before. -/
theorem countP_wholeRun_splits (e : SplitEffect (TagIn held tags) s s₁ s' t n rem)
    (h : HeapShape s held tags free) (ht : TagIn held tags t) (hdet : Detached s t) {j : ℤ}
    (hj : 0 ≤ j) : (free j).countP (wholeRun s') = (free j).countP (wholeRun s) := by
  refine List.countP_congr fun u hu => ?_
  obtain ⟨huT, hidx⟩ := (h.lists.mem j hj u).1 hu
  have hut : u ≠ t := by
    rintro rfl
    have := hdet.1
    omega
  rw [e.wholeRun h.runs ht huT hut]

/-- Of two tags that touch one is live still: what is right of the new tag was right of the old one. -/
theorem SplitEffect.alone (e : SplitEffect (TagIn held tags) s s₁ s' t n rem)
    (h : HeapShape s held tags free) (ht : TagIn held tags t) (hdet : Detached s t)
    (hright : s.get t .splitRight ≠ 0 → s.index (s.get t .splitRight) = -1)
    (hu : TagIn held tags u ∨ u = n) (h0 : s'.get u .splitRight ≠ 0) :
    s'.index u = -1 ∨ s'.index (s'.get u .splitRight) = -1 := by
  have hsplits := e.splits_inserted
  obtain ⟨r, hr, htr⟩ := ht
  rcases hu with hu | rfl
  · by_cases hut : u = t
    · left
      rw [hut, e.index ⟨r, hr, htr⟩, hdet.1]
    · rw [hsplits.splitRight u (Or.inl hu), if_neg (e.ne hu), if_neg hut] at h0 ⊢
      obtain ⟨r', hr', hur⟩ := hu
      have hmem : TagIn held tags (s.get u .splitRight) :=
        ⟨r', hr', (h.runs.splitRight_mem hr' hur h0).1⟩
      rw [e.index ⟨r', hr', hur⟩, e.index hmem]
      exact h.alone u ⟨r', hr', hur⟩ h0
  · right
    rw [hsplits.splitRight u (Or.inr rfl), if_pos rfl] at h0 ⊢
    rw [e.index ⟨r, hr, (h.runs.splitRight_mem hr htr h0).1⟩]
    exact hright h0

/-- **Splitting keeps the shape**: the rest of the tag in hand becomes a free tag of its own. -/
theorem HeapShape.splits (h : HeapShape s held tags free) (hr : r ∈ held) {xs ys : List UInt32}
    (htags : tags r.base = xs ++ t :: ys) (hdet : Detached s t)
    (hright : s.get t .splitRight ≠ 0 → s.index (s.get t .splitRight) = -1)
    (hrem : 32 ≤ rem.toNat) (hn : n.toNat + rem.toNat = t.toNat + (s.get t .realSize).toNat)
    (hlt : t.toNat + 32 ≤ n.toNat) (e : SplitEffect (TagIn held tags) s s₁ s' t n rem) :
    ∃ free', HeapShape s' held (Function.update tags r.base (xs ++ t :: n :: ys)) free' ∧
      Detached s' t := by
  have htr : t ∈ tags r.base := by
    rw [htags]
    simp
  have ht : TagIn held tags t := ⟨r, hr, htr⟩
  have hTag' : TagIn held (Function.update tags r.base (xs ++ t :: n :: ys)) =
      fun u => TagIn held tags u ∨ u = n :=
    funext fun u => propext (tagIn_splits h.runs hr htags)
  have hsplits := e.splits_inserted
  refine ⟨Function.update free (listIndex (rem.toNat - 32))
    (n :: free (listIndex (rem.toNat - 32))), ?_, e.detached h.lists ht hdet⟩
  constructor
  · exact h.runs.splits hr htags hrem hn hlt hsplits
  · rw [hTag']
    exact e.lists h.lists
  · rw [hTag']
    rintro u (hu | rfl)
    · rw [e.get_kept hu (Or.inl rfl), h.magic u hu]
    · exact e.magic_new
  · rw [hTag']
    rintro u (hu | rfl)
    · by_cases hut : u = t
      · rw [hut]
        exact Or.inl (e.detached h.lists ht hdet)
      · rcases h.kind u hu with hd | hidx
        · exact Or.inl (e.detached h.lists hu hd)
        · right
          rw [e.index hu, hidx, hsplits.realSize u (Or.inl hu), if_neg (e.ne hu), if_neg hut]
    · right
      rw [e.index_new, hsplits.realSize u (Or.inr rfl), if_pos rfl]
  · rw [hTag']
    exact fun u hu h0 => e.alone h ht hdet hright hu h0
  · intro j hj
    rw [e.completePages, h.count j hj]
    by_cases hji : j = listIndex (rem.toNat - 32)
    · subst hji
      rw [Function.update_self, List.countP_cons, countP_wholeRun_splits e h ht hdet hj,
        e.wholeRun_new ht, if_neg (by decide), Nat.add_zero]
    · rw [Function.update_of_ne hji, countP_wholeRun_splits e h ht hdet hj]
  · intro j hj
    rw [e.completePages]
    exact h.count_le j hj

end Split

end CometOS
