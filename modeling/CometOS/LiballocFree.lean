import CometOS.LiballocRelease

/-!
# Release

`free` melts the tag with its free neighbours and puts it back, or gives its run back if too many
like it are standing by.
-/

namespace CometOS

open ByteMemory LinkedList Loop Record Run Tiling Word32

section Free

variable {s s' : Liballoc} {held : List PageRun} {tags : UInt32 → List UInt32}
  {free : ℤ → List UInt32} {r : PageRun} {t u x l d : UInt32} {T : UInt32 → Prop}

/-! ### One turn of either loop -/

/-- **One melting.**  The tag in hand is `hand` before and `l` after; live tags stay as they were. -/
theorem HeapShape.meldEffect (h : HeapShape s held tags free) (hr : r ∈ held) {hand : UInt32}
    {xs ys : List UInt32} (htags : tags r.base = xs ++ l :: d :: ys)
    (hx : (x = l ∧ hand = d) ∨ (x = d ∧ hand = l)) (hi : 0 ≤ s.index x) (hdet : Detached s hand)
    (he : MeldEffect (TagIn held tags) s s' l d x) :
    ∃ tags' free', HeapShape s' held tags' free' ∧ TagIn held tags' l ∧ Detached s' l ∧
      KeepsLive (LiveTag s held tags hand) (LiveTag s' held tags' l) s s' := by
  have hother : ∀ v, v = l ∨ v = d → v ≠ x → Detached s v := by
    intro v hv hvx
    have hvh : v = hand := by
      rcases hx with ⟨rfl, rfl⟩ | ⟨rfl, rfl⟩
      · exact hv.resolve_left hvx
      · exact hv.resolve_right hvx
    rw [hvh]
    exact hdet
  have hld : l ≠ d := by
    rintro rfl
    rcases hx with ⟨rfl, rfl⟩ | ⟨rfl, rfl⟩ <;> exact absurd hdet.1 (by omega)
  obtain ⟨free', h', hdet'⟩ := h.melds hr htags (hx.imp And.left And.left) hi hother he
  obtain ⟨hl, hkeep⟩ := he.keepsLive h.runs hr htags hx hi hld
  exact ⟨_, free', h', hl, hdet', hkeep⟩

/-- `melt_left` and `remove_tag`, when the tag on the left is free. -/
theorem meltLeft_shape (h : HeapShape s held tags free) (ht : TagIn held tags t)
    (hdet : Detached s t) (h0 : s.get t .splitLeft ≠ 0) (hi : 0 ≤ s.index (s.get t .splitLeft))
    {l : UInt32} (hleft : l = s.get t .splitLeft) (hs' : s' = removeTag l (meldTag l t s)) :
    ∃ tags' free', HeapShape s' held tags' free' ∧ TagIn held tags' l ∧ Detached s' l ∧
      KeepsLive (LiveTag s held tags t) (LiveTag s' held tags' l) s s' ∧
      (s'.get l .splitLeft ≠ 0 → s'.index (s'.get l .splitLeft) = -1) ∧
      s'.initialized = s.initialized := by
  obtain ⟨r, hr, htr⟩ := ht
  rw [← hleft] at h0 hi
  obtain ⟨⟨xs, ys, htags⟩, he, _, hlive⟩ := h.releasable.meltLeft hr htr hdet hleft h0 hi hs'
  obtain ⟨tags', free', h', hl', hdet', hkeep⟩ :=
    h.meldEffect hr htags (Or.inl ⟨rfl, rfl⟩) hi hdet he
  exact ⟨tags', free', h', hl', hdet', hkeep, hlive, he.initialized⟩

/-- `absorb_right`, when the tag on the right is free. -/
theorem absorbRight_shape (h : HeapShape s held tags free) (ht : TagIn held tags t)
    (hdet : Detached s t) (h0 : s.get t .splitRight ≠ 0)
    (hi : 0 ≤ s.index (s.get t .splitRight))
    (hleft : s.get t .splitLeft ≠ 0 → s.index (s.get t .splitLeft) = -1)
    {d : UInt32} (hd : d = s.get t .splitRight) (hs' : s' = meldTag t d (removeTag d s)) :
    ∃ tags' free', HeapShape s' held tags' free' ∧ TagIn held tags' t ∧ Detached s' t ∧
      KeepsLive (LiveTag s held tags t) (LiveTag s' held tags' t) s s' ∧
      (s'.get t .splitLeft ≠ 0 → s'.index (s'.get t .splitLeft) = -1) ∧
      (s'.get t .splitRight ≠ 0 → s'.index (s'.get t .splitRight) = -1) ∧
      s'.initialized = s.initialized := by
  obtain ⟨r, hr, htr⟩ := ht
  rw [← hd] at h0 hi
  obtain ⟨⟨xs, ys, htags⟩, he, _, hleft', hright'⟩ :=
    h.releasable.absorbRight hr htr hdet hd h0 hi hleft hs'
  obtain ⟨tags', free', h', ht', hdet', hkeep⟩ :=
    h.meldEffect hr htags (Or.inr ⟨rfl, rfl⟩) hi hdet he
  exact ⟨tags', free', h', ht', hdet', hkeep, hleft', hright', he.initialized⟩

/-! ### The loops -/

/-- The loop melts at most once, for the tag it melts with has no free neighbour. -/
theorem meltLeftLoop_spec (h : HeapShape s held tags free) (ht : TagIn held tags t)
    (hdet : Detached s t) :
    ∃ t' s' tags' free', meltLeftLoop t s = some (t', s') ∧ HeapShape s' held tags' free' ∧
      TagIn held tags' t' ∧ Detached s' t' ∧
      KeepsLive (LiveTag s held tags t) (LiveTag s' held tags' t') s s' ∧
      (s'.get t' .splitLeft ≠ 0 → s'.index (s'.get t' .splitLeft) = -1) ∧
      s'.initialized = s.initialized := by
  have hmem : s.get t .splitLeft ≠ 0 → TagIn held tags (s.get t .splitLeft) := by
    obtain ⟨r, hr, htr⟩ := ht
    exact fun h0 => ⟨r, hr, (h.runs.splitLeft_mem hr htr h0).1⟩
  by_cases hc : s.get t .splitLeft ≠ 0 ∧ 0 ≤ s.index (s.get t .splitLeft)
  · obtain ⟨tags', free', h', hl', hdet', hkeep, hlive, hinit⟩ :=
      meltLeft_shape h ht hdet hc.1 hc.2 rfl rfl
    exact ⟨_, _, tags', free', meltLeftLoop_once hc rfl rfl hlive, h', hl', hdet', hkeep, hlive,
      hinit⟩
  · exact ⟨t, s, tags, free, meltLeftLoop_stop hc, h, ht, hdet, KeepsLive.refl,
      h.releasable.live_of_not hmem hc, rfl⟩

theorem absorbRightLoop_spec (h : HeapShape s held tags free) (ht : TagIn held tags t)
    (hdet : Detached s t)
    (hleft : s.get t .splitLeft ≠ 0 → s.index (s.get t .splitLeft) = -1) :
    ∃ s' tags' free', absorbRightLoop t s = some (t, s') ∧ HeapShape s' held tags' free' ∧
      TagIn held tags' t ∧ Detached s' t ∧
      KeepsLive (LiveTag s held tags t) (LiveTag s' held tags' t) s s' ∧
      (s'.get t .splitLeft ≠ 0 → s'.index (s'.get t .splitLeft) = -1) ∧
      (s'.get t .splitRight ≠ 0 → s'.index (s'.get t .splitRight) = -1) ∧
      s'.initialized = s.initialized := by
  have hmem : s.get t .splitRight ≠ 0 → TagIn held tags (s.get t .splitRight) := by
    obtain ⟨r, hr, htr⟩ := ht
    exact fun h0 => ⟨r, hr, (h.runs.splitRight_mem hr htr h0).1⟩
  by_cases hc : s.get t .splitRight ≠ 0 ∧ 0 ≤ s.index (s.get t .splitRight)
  · obtain ⟨tags', free', h', ht', hdet', hkeep, hleft', hright', hinit⟩ :=
      absorbRight_shape h ht hdet hc.1 hc.2 hleft rfl rfl
    exact ⟨_, tags', free', absorbRightLoop_once hc rfl rfl hright', h', ht', hdet', hkeep, hleft',
      hright', hinit⟩
  · exact ⟨s, tags, free, absorbRightLoop_stop hc, h, ht, hdet, KeepsLive.refl, hleft,
      h.releasable.live_of_not hmem hc, rfl⟩

/-! ### The end of `free` -/

/-- The tag in hand goes to its list, and the counter is brought up to date first. -/
theorem insertTag_shape (h : HeapShape s held tags free) (ht : TagIn held tags t)
    (hdet : Detached s t)
    (hleft : s.get t .splitLeft ≠ 0 → s.index (s.get t .splitLeft) = -1)
    (hright : s.get t .splitRight ≠ 0 → s.index (s.get t .splitRight) = -1) {i : ℤ}
    (hi : i = listIndex ((s.get t .realSize).toNat - 32)) {c : ℤ → ℤ}
    (hroom : wholeRun s t = true → s.completePages i ≠ maxComplete)
    (hcount : c = if wholeRun s t then Function.update s.completePages i (s.completePages i + 1)
      else s.completePages) (hs' : s' = insertTag t i { s with completePages := c }) :
    (∃ free', HeapShape s' held tags free') ∧
      KeepsLive (LiveTag s held tags t) (LiveTag s' held tags 0) s s' ∧
      s'.initialized = s.initialized := by
  have hle := (h.runs.realSize_le ht).1
  obtain ⟨hi8, hi32⟩ := listIndex_bounds (n := (s.get t .realSize).toNat - 32) (by omega)
  obtain ⟨hins, _, hsame⟩ :=
    h.lists.insertTag h.runs.separated ht hdet (by omega) (by omega) hs'
  have hcount' : s'.completePages = if wholeRun s t then
      Function.update s.completePages i (s.completePages i + 1) else s.completePages := by
    rw [hs', insertTag_completePages, hcount]
  refine ⟨h.insert ht hdet hright hleft hi hins hsame hroom hcount', ?_, ?_⟩
  · constructor
    · intro u
      constructor
      · rintro ⟨hu, hidx, _⟩
        have hut : u ≠ t := by
          rintro rfl
          rw [hins.index u hu, if_pos rfl] at hidx
          omega
        rw [hins.index u hu, if_neg hut] at hidx
        exact ⟨hu, hidx, hut⟩
      · rintro ⟨hu, hidx, hut⟩
        exact ⟨hu, by rw [hins.index u hu, if_neg hut, hidx], h.runs.ne_zero hu⟩
    · rintro u ⟨hu, _⟩
      exact hsame u hu _ (by decide)
    · rintro u ⟨hu, _⟩
      exact hsame u hu _ (by decide)
  · rw [hs', insertTag_initialized]

theorem filter_ne_none {α : Type*} [DecidableEq α] (xs : List α) :
    (xs.filter fun x => some x ≠ none) = xs :=
  List.filter_eq_self.2 fun _ _ => rfl

/-- A run goes back that has the tag in hand alone. -/
theorem KeepsLive.drop (h : RunsOk s held tags) {r : PageRun} (hr : r ∈ held)
    (hone : tags r.base = [t]) : KeepsLive (LiveTag s held tags t)
      (LiveTag s (held.filter fun run => some run ≠ some r) tags 0) s s := by
  have hTag' := fun u => tagIn_drop h hr (u := u)
  constructor
  · intro u
    constructor
    · rintro ⟨hu, hidx, _⟩
      obtain ⟨huT, hnot⟩ := (hTag' u).1 hu
      rw [hone, List.mem_singleton] at hnot
      exact ⟨huT, hidx, hnot⟩
    · rintro ⟨hu, hidx, hut⟩
      refine ⟨(hTag' u).2 ⟨hu, ?_⟩, hidx, h.ne_zero hu⟩
      rw [hone, List.mem_singleton]
      exact hut
  · exact fun _ _ => rfl
  · exact fun _ _ => rfl

/-- **The end of `free`**: the tag in hand goes to its list, or its run goes back as it came. -/
theorem freeFinish_spec (h : HeapShape s held tags free) (ht : TagIn held tags t)
    (hdet : Detached s t)
    (hleft : s.get t .splitLeft ≠ 0 → s.index (s.get t .splitLeft) = -1)
    (hright : s.get t .splitRight ≠ 0 → s.index (s.get t .splitRight) = -1) :
    ∃ s' given free', freeFinish t s = (s', given) ∧
      HeapShape s' (held.filter fun run => some run ≠ given) tags free' ∧
      KeepsLive (LiveTag s held tags t)
        (LiveTag s' (held.filter fun run => some run ≠ given) tags 0) s s' ∧
      (∀ run, given = some run → run ∈ held) ∧ s'.initialized = s.initialized := by
  have hheader := h.runs.header t ht
  have hle := (h.runs.realSize_le ht).1
  have hindex : atLeastMinexp (getexp (s.get t .realSize - 32)) =
      listIndex ((s.get t .realSize).toNat - 32) := by
    rw [atLeastMinexp_getexp, toNat_sub_of_le (b := 32) hheader]
    rfl
  simp only [freeFinish, hindex]
  by_cases hw : s.get t .splitLeft = 0 ∧ s.get t .splitRight = 0
  · rw [if_pos hw]
    have hwhole := wholeRun_iff.2 hw
    by_cases hfull : s.completePages (listIndex ((s.get t .realSize).toNat - 32)) = maxComplete
    · rw [if_pos hfull]
      obtain ⟨r, hr, htr⟩ := ht
      obtain ⟨hone, hbase, hsize⟩ := h.runs.whole hr htr hw.1 hw.2
      have hrun : (⟨t, pagesOf (s.get t .realSize)⟩ : PageRun) = r := by
        rw [pagesOf_eq (h.runs.bound r hr).2.1 hsize, hbase]
      rw [hrun]
      refine ⟨s, some r, free, rfl, h.drop hr hone hdet, KeepsLive.drop h.runs hr hone, ?_, rfl⟩
      rintro run hrun
      obtain rfl := Option.some.inj hrun
      exact hr
    · rw [if_neg hfull]
      obtain ⟨⟨free', h'⟩, hkeep, hinit⟩ := insertTag_shape h ht hdet hleft hright rfl
        (fun _ => hfull) (if_pos hwhole).symm rfl
      refine ⟨_, none, free', rfl, ?_, ?_, ?_, hinit⟩
      · rw [filter_ne_none]
        exact h'
      · rw [filter_ne_none]
        exact hkeep
      · exact fun run hrun => by cases hrun
  · rw [if_neg hw]
    have hwhole : ¬ wholeRun s t = true := fun hc => hw (wholeRun_iff.1 hc)
    obtain ⟨⟨free', h'⟩, hkeep, hinit⟩ := insertTag_shape h ht hdet hleft hright rfl
      (fun hc => absurd hc hwhole) (if_neg hwhole).symm rfl
    refine ⟨_, none, free', rfl, ?_, ?_, ?_, hinit⟩
    · rw [filter_ne_none]
      exact h'
    · rw [filter_ne_none]
      exact hkeep
    · exact fun run hrun => by cases hrun

/-- **`free`**, of a pointer behind a live tag.  It always returns; the tag is live no more, the
other live tags stay as they are, and a run it gives back is one that is held. -/
theorem free_spec (h : HeapShape s held tags free) (ht : TagIn held tags t) (hidx : s.index t = -1)
    {ptr : UInt32} (hptr : ptr = t + 32) (hne : ptr ≠ 0) :
    ∃ s' given tags' free', CometOS.free ptr s = some (s', given) ∧
      HeapShape s' (held.filter fun run => some run ≠ given) tags' free' ∧
      KeepsLive (LiveTag s held tags t)
        (LiveTag s' (held.filter fun run => some run ≠ given) tags' 0) s s' ∧
      (∀ run, given = some run → run ∈ held) ∧ s'.initialized = s.initialized := by
  have hdet := h.detached ht (by omega)
  have hsub : ptr - 32 = t := by
    rw [hptr, UInt32.add_sub_cancel]
  obtain ⟨t₁, s₁, tags₁, free₁, hmelt, h₁, ht₁, hdet₁, hkeep₁, hleft₁, hinit₁⟩ :=
    meltLeftLoop_spec h ht hdet
  obtain ⟨s₂, tags₂, free₂, habsorb, h₂, ht₂, hdet₂, hkeep₂, hleft₂, hright₂, hinit₂⟩ :=
    absorbRightLoop_spec h₁ ht₁ hdet₁ hleft₁
  obtain ⟨s₃, given, free₃, hfinish, h₃, hkeep₃, hgiven, hinit₃⟩ :=
    freeFinish_spec h₂ ht₂ hdet₂ hleft₂ hright₂
  refine ⟨s₃, given, tags₂, free₃, ?_, h₃, (hkeep₁.trans hkeep₂).trans hkeep₃, hgiven,
    (hinit₃.trans hinit₂).trans hinit₁⟩
  rw [CometOS.free, if_neg hne]
  simp only [hsub]
  rw [if_neg (not_not.2 (h.magic t ht)), hmelt, Option.bind_some, habsorb, Option.map_some, hfinish]

end Free

end CometOS
