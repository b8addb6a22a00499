import CometOS.LiballocShape

/-!
# Melting two neighbours

`melt_left` followed by `remove_tag`, and `absorb_right`, which removes first, do the same to the tags
(`MeldEffect`), so that one lemma about shapes serves both loops of `free`.
-/

namespace CometOS

open ByteMemory LinkedList Loop Record Run Tiling Word32

/-- Tags `l` and `d` have become one, and `x`, the free one of the two, has left its list. -/
structure MeldEffect (T : UInt32 → Prop) (s s' : Liballoc) (l d x : UInt32) : Prop where
  unlinks : Unlinks T s s' x
  melds : Melds T s s' l d
  keeps : ∀ u, T u → ∀ f, f = .magic ∨ f = .size → s'.get u f = s.get u f
  completePages : s'.completePages = s.completePages
  initialized : s'.initialized = s.initialized

section Meld

variable {s s' : Liballoc} {held : List PageRun} {tags : UInt32 → List UInt32}
  {free : ℤ → List UInt32} {r : PageRun} {t u x l d : UInt32} {xs ys : List UInt32}
  {T : UInt32 → Prop}

/-! ### The two orders of melting -/

/-- `melt_left`, then `remove_tag`. -/
theorem removeTag_meldTag (hT : boundaryTag.Separated T) (hl : T l) (hd : T d) (hne : l ≠ d)
    (hright : s.get d .splitRight ≠ 0 → T (s.get d .splitRight)) (hlist : ListNeighbours T s l) :
    MeldEffect T s (removeTag l (meldTag l d s)) l d l := by
  have hget := fun u (hu : T u) f => meldTag_get (s := s) hT hl hd hne hright hu f
  have hindex := fun u (hu : T u) => meldTag_index (s := s) hT hl hd hne hright hu
  have hnext : ∀ u, T u → (meldTag l d s).get u .next = s.get u .next := by
    intro u hu
    rw [hget u hu]
    simp
  have hprev : ∀ u, T u → (meldTag l d s).get u .prev = s.get u .prev := by
    intro u hu
    rw [hget u hu]
    simp
  have hlist' : ListNeighbours T (meldTag l d s) l := by
    constructor
    · rw [hprev l hl]
      exact hlist.prev
    · rw [hnext l hl]
      exact hlist.next
    · rw [hprev l hl]
      exact hlist.prev_ne
    · rw [hnext l hl]
      exact hlist.next_ne
  have hun := removeTag_unlinks hT hl hlist'
  have hsame := fun u (hu : T u) f hf => removeTag_get_of_ne (f := f) hT hl hlist' hu hf
  constructor
  · constructor
    · intro u hu
      rw [hun.index u hu, hindex u hu]
    · intro u hu
      rw [hun.next u hu, hprev l hl, hnext l hl, hnext u hu]
    · intro u hu
      rw [hun.prev u hu, hprev l hl, hnext l hl, hprev u hu]
    · rw [hun.freePages, meldTag_freePages, hindex l hl, hnext l hl]
  · constructor
    · intro u hu
      rw [hsame u hu _ (by decide), hget u hu]
      simp
    · intro u hu
      rw [hsame u hu _ (by decide), hget u hu]
      simp
    · intro u hu
      rw [hsame u hu _ (by decide), hget u hu]
      simp
  · rintro u hu f (rfl | rfl)
    · rw [hsame u hu _ (by decide), hget u hu]
      simp
    · rw [hsame u hu _ (by decide), hget u hu]
      simp
  · rw [removeTag_completePages, meldTag_completePages]
  · rw [removeTag_initialized, meldTag_initialized]

/-- `absorb_right`: `remove_tag` first. -/
theorem meldTag_removeTag (hT : boundaryTag.Separated T) (hl : T l) (hd : T d) (hne : l ≠ d)
    (hright : s.get d .splitRight ≠ 0 → T (s.get d .splitRight)) (hlist : ListNeighbours T s d) :
    MeldEffect T s (meldTag l d (removeTag d s)) l d d := by
  have hun := removeTag_unlinks hT hd hlist
  have hsame := fun u (hu : T u) f hf => removeTag_get_of_ne (f := f) hT hd hlist hu hf
  have hright' : (removeTag d s).get d .splitRight ≠ 0 → T ((removeTag d s).get d .splitRight) := by
    rw [hsame d hd _ (by decide)]
    exact hright
  have hget := fun u (hu : T u) f => meldTag_get (s := removeTag d s) hT hl hd hne hright' hu f
  have hindex := fun u (hu : T u) => meldTag_index (s := removeTag d s) hT hl hd hne hright' hu
  constructor
  · constructor
    · intro u hu
      rw [hindex u hu, hun.index u hu]
    · intro u hu
      rw [hget u hu, ← hun.next u hu]
      simp
    · intro u hu
      rw [hget u hu, ← hun.prev u hu]
      simp
    · rw [meldTag_freePages, hun.freePages]
  · constructor
    · intro u hu
      rw [hget u hu, hsame l hl _ (by decide), hsame d hd .realSize (by decide),
        hsame u hu _ (by decide)]
      simp
    · intro u hu
      rw [hget u hu, hsame d hd .splitRight (by decide), hsame u hu _ (by decide)]
      simp
    · intro u hu
      rw [hget u hu, hsame d hd .splitRight (by decide), hsame u hu _ (by decide)]
      simp
  · rintro u hu f (rfl | rfl)
    · rw [hget u hu, ← hsame u hu _ (by decide)]
      simp
    · rw [hget u hu, ← hsame u hu _ (by decide)]
      simp
  · rw [meldTag_completePages, removeTag_completePages]
  · rw [meldTag_initialized, removeTag_initialized]

/-! ### Whole runs -/

/-- Neither of two neighbours is a whole run. -/
theorem RunsOk.not_wholeRun (h : RunsOk s held tags) (hr : r ∈ held)
    (htags : tags r.base = xs ++ l :: d :: ys) (hx : x = l ∨ x = d) : wholeRun s x = false := by
  have hlink := h.linked r hr
  rw [htags] at hlink
  have hld : s.get l .splitRight = d := hlink.next_eq
  rw [List.append_cons] at hlink
  have hdl : s.get d .splitLeft = l := by
    have := hlink.prev_eq
    rw [getLastD_append] at this
    exact this
  rw [Bool.eq_false_iff]
  intro hw
  obtain ⟨h1, h2⟩ := wholeRun_iff.1 hw
  rcases hx with rfl | rfl
  · exact h.ne_zero ⟨r, hr, by rw [htags]; simp⟩ (hld.symm.trans h2)
  · exact h.ne_zero ⟨r, hr, by rw [htags]; simp⟩ (hdl.symm.trans h1)

/-- No tag but the one in hand becomes or stops being a whole run. -/
theorem MeldEffect.wholeRun (e : MeldEffect (TagIn held tags) s s' l d x) (h : RunsOk s held tags)
    (hl : TagIn held tags l) (hd : TagIn held tags d) (hu : TagIn held tags u) (hul : u ≠ l) :
    wholeRun s' u = wholeRun s u := by
  by_cases hud : u = s.get d .splitRight
  · obtain ⟨r, hr, hdr⟩ := hd
    have h0 : s.get d .splitRight ≠ 0 := by
      rw [← hud]
      exact h.ne_zero hu
    have hback := (h.splitRight_mem hr hdr h0).2
    rw [← hud] at hback
    rw [Bool.eq_iff_iff, wholeRun_iff, wholeRun_iff, e.melds.splitLeft u hu, if_pos hud, hback]
    exact iff_of_false (fun hw => h.ne_zero hl hw.1) fun hw => h.ne_zero ⟨r, hr, hdr⟩ hw.1
  · apply wholeRun_congr
    · rw [e.melds.splitLeft u hu, if_neg hud]
    · rw [e.melds.splitRight u hu, if_neg hul]

/-- The counters count what is left in the lists: the tag that left its list was not a whole run. -/
theorem HeapShape.melds_count (h : HeapShape s held tags free) (hr : r ∈ held)
    (htags : tags r.base = xs ++ l :: d :: ys) (hx : x = l ∨ x = d) (hi : 0 ≤ s.index x)
    (hlx : l ≠ x → Detached s l) (e : MeldEffect (TagIn held tags) s s' l d x) {i : ℤ}
    (hi' : 0 ≤ i) : s'.completePages i =
      (Function.update free (s.index x) ((free (s.index x)).erase x) i).countP (wholeRun s') := by
  have hl : TagIn held tags l := ⟨r, hr, by rw [htags]; simp⟩
  have hd : TagIn held tags d := ⟨r, hr, by rw [htags]; simp⟩
  have hxT : TagIn held tags x := by
    rcases hx with rfl | rfl
    · exact hl
    · exact hd
  -- the left one is in no list, unless it is the one that leaves its list
  have hother : ∀ j, 0 ≤ j → ∀ u ∈ free j, u ≠ x → wholeRun s' u = wholeRun s u := by
    intro j hj u hu hux
    obtain ⟨huT, hidx⟩ := (h.lists.mem j hj u).1 hu
    apply e.wholeRun h.runs hl hd huT
    rintro rfl
    have := (hlx hux).1
    omega
  rw [e.completePages, h.count i hi']
  by_cases hix : i = s.index x
  · subst hix
    rw [Function.update_self, countP_erase ((h.lists.mem _ hi x).2 ⟨hxT, rfl⟩),
      h.runs.not_wholeRun hr htags hx, if_neg (by decide), Nat.add_zero]
    congr 1
    refine List.countP_congr fun u hu => ?_
    have hux : u ≠ x := ((h.lists.nodup h.runs.separated hi).mem_erase_iff.1 hu).1
    rw [hother _ hi u (List.mem_of_mem_erase hu) hux]
  · rw [Function.update_of_ne hix]
    congr 1
    refine List.countP_congr fun u hu => ?_
    have hux : u ≠ x := by
      rintro rfl
      exact hix ((h.lists.mem i hi' u).1 hu).2.symm
    rw [hother i hi' u hu hux]

/-! ### The shape -/

/-- **Melting keeps the shape**: `x` is the free one of the two, which leaves its list, and `l`, the
left one, is the tag in hand afterwards. -/
theorem HeapShape.melds (h : HeapShape s held tags free) (hr : r ∈ held)
    (htags : tags r.base = xs ++ l :: d :: ys) (hx : x = l ∨ x = d) (hi : 0 ≤ s.index x)
    (hother : ∀ u, u = l ∨ u = d → u ≠ x → Detached s u)
    (e : MeldEffect (TagIn held tags) s s' l d x) :
    ∃ free', HeapShape s' held (Function.update tags r.base (xs ++ l :: ys)) free' ∧
      Detached s' l := by
  have hT := h.runs.separated
  have hl : TagIn held tags l := ⟨r, hr, by rw [htags]; simp⟩
  have hd : TagIn held tags d := ⟨r, hr, by rw [htags]; simp⟩
  have hxT : TagIn held tags x := by
    rcases hx with rfl | rfl
    · exact hl
    · exact hd
  have hTag' : ∀ u, TagIn held (Function.update tags r.base (xs ++ l :: ys)) u ↔
      TagIn held tags u ∧ u ≠ d := fun u => tagIn_melds h.runs hr htags
  have hdidx : s'.index d = -1 := by
    by_cases hdx : d = x
    · rw [e.unlinks.index d hd, if_pos hdx]
    · exact e.unlinks.index_of_neg hd (hother d (Or.inr rfl) hdx).1
  have hldet : Detached s' l := by
    apply e.unlinks.detached h.lists hT hxT hi hl
    by_cases hlx : l = x
    · exact Or.inl hlx
    · exact Or.inr (hother l (Or.inl rfl) hlx)
  refine ⟨Function.update free (s.index x) ((free (s.index x)).erase x), ?_, hldet⟩
  constructor
  · exact h.runs.melds hr htags e.melds
  · refine (h.lists.remove hT hxT hi e.unlinks).congr rfl (fun u hu hidx => ?_) fun u hu _ => ?_
    · refine ⟨(hTag' u).2 ⟨hu, ?_⟩, rfl, rfl, rfl⟩
      rintro rfl
      omega
    · exact ⟨((hTag' u).1 hu).1, rfl⟩
  · intro u hu
    have huT := ((hTag' u).1 hu).1
    rw [e.keeps u huT _ (Or.inl rfl), h.magic u huT]
  · intro u hu
    obtain ⟨huT, hud⟩ := (hTag' u).1 hu
    by_cases hul : u = l
    · rw [hul]
      exact Or.inl hldet
    · have hux : u ≠ x := by
        rintro rfl
        exact hx.elim hul hud
      rw [e.melds.realSize u huT, if_neg hul]
      rcases h.kind u huT with hdet | hidx
      · exact Or.inl (e.unlinks.detached h.lists hT hxT hi huT (Or.inr hdet))
      · rw [e.unlinks.index u huT, if_neg hux]
        exact Or.inr hidx
  · intro u hu h0
    obtain ⟨huT, hud⟩ := (hTag' u).1 hu
    by_cases hul : u = l
    · rw [hul]
      exact Or.inl hldet.1
    · rw [e.melds.splitRight u huT, if_neg hul] at h0 ⊢
      obtain ⟨r', hr', hur⟩ := huT
      have hright : TagIn held tags (s.get u .splitRight) :=
        ⟨r', hr', (h.runs.splitRight_mem hr' hur h0).1⟩
      exact (h.alone u ⟨r', hr', hur⟩ h0).imp (e.unlinks.index_of_neg ⟨r', hr', hur⟩)
        (e.unlinks.index_of_neg hright)
  · exact fun i hi' => h.melds_count hr htags hx hi (hother l (Or.inl rfl)) e hi'
  · intro i hi'
    rw [e.completePages]
    exact h.count_le i hi'

end Meld

end CometOS
