import CometOS.LiballocSplit

/-!
# Allocation

`malloc` goes from one shape to another.  It takes a free tag out of its list or brings in a new run,
either way a tag in hand, and splits off what that tag has too much.  `KeepsLive` says that on the
way the live tags, the one in hand apart, stay live and keep their sizes.
-/

namespace CometOS

open ByteMemory LinkedList Loop Record Run Tiling Word32

/-- `u` is a live tag other than the one in hand; with no tag in hand that is 0. -/
def LiveTag (s : Liballoc) (held : List PageRun) (tags : UInt32 → List UInt32) (hand u : UInt32) :
    Prop :=
  TagIn held tags u ∧ s.index u = -1 ∧ u ≠ hand

/-- From `P` to `P'` the live tags stay the same and keep their sizes. -/
structure KeepsLive (P P' : UInt32 → Prop) (s s' : Liballoc) : Prop where
  iff : ∀ u, P' u ↔ P u
  size : ∀ u, P u → s'.get u .size = s.get u .size
  realSize : ∀ u, P u → s'.get u .realSize = s.get u .realSize

theorem KeepsLive.refl {P : UInt32 → Prop} {s : Liballoc} : KeepsLive P P s s :=
  ⟨fun _ => Iff.rfl, fun _ _ => rfl, fun _ _ => rfl⟩

theorem KeepsLive.trans {P₁ P₂ P₃ : UInt32 → Prop} {s₁ s₂ s₃ : Liballoc}
    (h : KeepsLive P₁ P₂ s₁ s₂) (h' : KeepsLive P₂ P₃ s₂ s₃) : KeepsLive P₁ P₃ s₁ s₃ where
  iff u := (h'.iff u).trans (h.iff u)
  size u hu := (h'.size u ((h.iff u).2 hu)).trans (h.size u hu)
  realSize u hu := (h'.realSize u ((h.iff u).2 hu)).trans (h.realSize u hu)

/-- A positive signed word. -/
theorem toInt32_pos {a : UInt32} : 0 < a.toInt32 ↔ 0 < a.toNat ∧ a.toNat < 2 ^ 31 := by
  rw [Int32.lt_iff_toInt_lt, toInt_toInt32, show (0 : Int32).toInt = 0 from rfl]
  have := a.toNat_lt
  split
  · omega
  · omega

section Malloc

variable {s s' : Liballoc} {held : List PageRun} {tags : UInt32 → List UInt32}
  {free : ℤ → List UInt32} {r : PageRun} {t u x size : UInt32}

/-! ### A tag from a list -/

/-- `malloc` up to the point where it has a tag from list `i` in hand. -/
def takeTag (x : UInt32) (i : ℤ) (s : Liballoc) : Liballoc :=
  let s := removeTag x s
  if s.get x .splitLeft = 0 ∧ s.get x .splitRight = 0 then
    { s with completePages := Function.update s.completePages i (s.completePages i - 1) }
  else s

theorem takeTag_get (i : ℤ) (f : TagField) : (takeTag x i s).get u f = (removeTag x s).get u f := by
  rw [takeTag]
  generalize removeTag x s = s'
  split <;> rfl

theorem takeTag_freePages (i : ℤ) : (takeTag x i s).freePages = (removeTag x s).freePages := by
  rw [takeTag]
  generalize removeTag x s = s'
  split <;> rfl

theorem takeTag_initialized (i : ℤ) : (takeTag x i s).initialized = s.initialized := by
  have hinit : (removeTag x s).initialized = s.initialized := removeTag_initialized
  rw [← hinit, takeTag]
  generalize removeTag x s = s'
  split <;> rfl

theorem takeTag_index (i : ℤ) : (takeTag x i s).index u = (removeTag x s).index u := by
  rw [Liballoc.index, takeTag_get]
  rfl

/-- The counter goes down if the tag had its run to itself. -/
theorem takeTag_completePages (h : HeapShape s held tags free) (hx : TagIn held tags x)
    (hi : 0 ≤ s.index x) : (takeTag x (s.index x) s).completePages = if wholeRun s x then
      Function.update s.completePages (s.index x) (s.completePages (s.index x) - 1)
      else s.completePages := by
  have hT := h.runs.separated
  have hl := h.lists.neighbours hT hx hi
  simp only [takeTag, wholeRun_iff, removeTag_get_of_ne hT hx hl hx (f := .splitLeft) (by decide),
    removeTag_get_of_ne hT hx hl hx (f := .splitRight) (by decide), removeTag_completePages]
  split
  · rfl
  · exact removeTag_completePages

theorem takeTag_spec (h : HeapShape s held tags free) (hx : TagIn held tags x)
    (hi : 0 ≤ s.index x) :
    (∃ free', HeapShape (takeTag x (s.index x) s) held tags free') ∧
      Detached (takeTag x (s.index x) s) x ∧
      KeepsLive (LiveTag s held tags 0) (LiveTag (takeTag x (s.index x) s) held tags x) s
        (takeTag x (s.index x) s) ∧
      ∀ u, TagIn held tags u → ∀ f, f ≠ .index ∧ f ≠ .next ∧ f ≠ .prev →
        (takeTag x (s.index x) s).get u f = s.get u f := by
  have hT := h.runs.separated
  have hl := h.lists.neighbours hT hx hi
  have hun := removeTag_unlinks hT hx hl
  have hsame : ∀ u, TagIn held tags u → ∀ f, f ≠ .index ∧ f ≠ .next ∧ f ≠ .prev →
      (takeTag x (s.index x) s).get u f = s.get u f := by
    intro u hu f hf
    rw [takeTag_get, removeTag_get_of_ne hT hx hl hu hf]
  have hun' : Unlinks (TagIn held tags) s (takeTag x (s.index x) s) x := by
    constructor
    · intro u hu
      rw [takeTag_index, hun.index u hu]
    · intro u hu
      rw [takeTag_get, hun.next u hu]
    · intro u hu
      rw [takeTag_get, hun.prev u hu]
    · rw [takeTag_freePages, hun.freePages]
  obtain ⟨free', h', hdet⟩ := h.remove hx hi hun' hsame (takeTag_completePages h hx hi)
  refine ⟨⟨free', h'⟩, hdet, ?_, hsame⟩
  constructor
  · intro u
    constructor
    · rintro ⟨hu, hidx, hux⟩
      rw [hun'.index u hu, if_neg hux] at hidx
      exact ⟨hu, hidx, hT.ne_zero hu⟩
    · rintro ⟨hu, hidx, _⟩
      refine ⟨hu, hun'.index_of_neg hu hidx, ?_⟩
      rintro rfl
      omega
  · rintro u ⟨hu, _⟩
    exact hsame u hu _ (by decide)
  · rintro u ⟨hu, _⟩
    exact hsame u hu _ (by decide)

/-! ### A tag from a new run -/

/-- The number of pages: that of a usage that may have wrapped, rounded up, and one at least. -/
theorem pagesFor_toNat (size : UInt32) :
    (pagesFor size).toNat = max 1 (((size.toNat + 32) % 2 ^ 32 + 4095) / 4096) := by
  obtain ⟨usage, husage⟩ : ∃ n, n = size + 32 := ⟨_, rfl⟩
  have hnat : usage.toNat = (size.toNat + 32) % 2 ^ 32 := by
    rw [husage, UInt32.toNat_add]
    rfl
  have hlt := usage.toNat_lt
  have h4096 : (4096 : UInt32).toNat = 4096 := rfl
  have hone : (1 : UInt32).toNat = 1 := rfl
  have hdiv : (usage / 4096).toNat = usage.toNat / 4096 := by rw [UInt32.toNat_div, h4096]
  have hmod : (usage % 4096).toNat = usage.toNat % 4096 := by rw [UInt32.toNat_mod, h4096]
  have hadd : (usage / 4096 + 1).toNat = usage.toNat / 4096 + 1 := by
    rw [toNat_add_of_lt, hdiv, hone]
    omega
  rw [← hnat]
  simp only [pagesFor, ← husage, UInt32.lt_iff_toNat_lt]
  by_cases hrest : usage % 4096 ≠ 0
  · have hpos := toNat_pos hrest
    simp only [if_pos hrest, hadd, hone]
    rw [if_neg (by omega), hadd]
    omega
  · have hzero : usage.toNat % 4096 = 0 := by
      rw [← hmod, not_not.1 hrest]
      rfl
    simp only [if_neg hrest, hdiv, hone]
    split
    · omega
    · omega

/-- Enough pages for the size and a tag, and no more than that takes. -/
theorem pagesFor_spec (hsize : size.toNat < 2 ^ 30) :
    0 < (pagesFor size).toNat ∧ (pagesFor size).toNat ≤ 2 ^ 18 + 1 ∧
      size.toNat + 32 ≤ 4096 * (pagesFor size).toNat := by
  rw [pagesFor_toNat]
  omega

/-- A fresh run's tag is apart from the others. -/
theorem RunsOk.separated_add (h : RunsOk s held tags) (hbase : r.base ≠ 0)
    (hpages : 0 < r.pages.toNat) (hfresh : FreshRun held r) :
    boundaryTag.Separated fun u => TagIn held tags u ∨ u = r.base := by
  have hstop : r.stop = r.base.toNat + 4096 * r.pages.toNat := rfl
  have hle := hfresh.1
  have hapart : ∀ a, TagIn held tags a → Apart a 32 r.base 32 := by
    rintro a ⟨r', hr', ha⟩
    have hb := h.bounds hr' ha
    have hheader := h.header a ⟨r', hr', ha⟩
    have hbound := (h.bound r' hr').2.2.2
    rcases hfresh.2 r' hr' with hlt | hgt
    · exact (apart_of_le (by decide) (by omega) (by omega)).symm
    · exact apart_of_le (by decide) (by omega) (by omega)
  exact h.separated.insert hbase hapart

/-- The first byte of a fresh run is no tag yet. -/
theorem RunsOk.not_tagIn_fresh (h : RunsOk s held tags) (hpages : 0 < r.pages.toNat)
    (hfresh : FreshRun held r) : ¬ TagIn held tags r.base := by
  rintro ⟨r', hr', ha⟩
  have hb := h.bounds hr' ha
  have hheader := h.header r.base ⟨r', hr', ha⟩
  have hstop : r.stop = r.base.toNat + 4096 * r.pages.toNat := rfl
  have hap := hfresh.2 r' hr'
  unfold PageRun.Apart at hap
  omega

/-- The links and the neighbours of a new tag are null. -/
theorem initNewTag_null {T : UInt32 → Prop} (hT : boundaryTag.Separated T) (hx : T x) {f : TagField}
    (hf : f ≠ .index ∧ f ≠ .magic ∧ f ≠ .size ∧ f ≠ .realSize) :
    (initNewTag x size s).get x f = 0 := by
  obtain ⟨hindex, hmagic, hsize, hreal⟩ := hf
  rw [(initNewTag_spec hT hx hx size).2 f hindex, if_pos rfl]
  cases f with
  | magic => exact absurd rfl hmagic
  | size => exact absurd rfl hsize
  | realSize => exact absurd rfl hreal
  | index => exact absurd rfl hindex
  | splitLeft | splitRight | next | prev => rfl

/-- A new tag covers its run. -/
theorem initNewTag_realSize {T : UInt32 → Prop} (hT : boundaryTag.Separated T) (hx : T x)
    (hsize : size.toNat < 2 ^ 30) :
    ((initNewTag x size s).get x .realSize).toNat = 4096 * (pagesFor size).toNat := by
  obtain ⟨_, hmax, _⟩ := pagesFor_spec hsize
  have h4096 : (4096 : UInt32).toNat = 4096 := rfl
  rw [(initNewTag_spec hT hx hx size).2 _ (by decide), if_pos rfl]
  show (pagesFor size * 4096).toNat = _
  rw [toNat_mul_of_lt (by rw [h4096]; omega), h4096, Nat.mul_comm]

/-- The live tags stay the same while one that is not live comes in. -/
theorem KeepsLive.add (h : RunsOk s held tags) (hpages : 0 < r.pages.toNat)
    (hfresh : FreshRun held r) (hindex : ∀ u, TagIn held tags u → s'.index u = s.index u)
    (hget : ∀ u, TagIn held tags u → ∀ f, f ≠ .index → s'.get u f = s.get u f) :
    KeepsLive (LiveTag s held tags 0)
      (LiveTag s' (r :: held) (Function.update tags r.base [r.base]) r.base) s s' := by
  have hTag' := fun u => tagIn_add h hfresh (u := u) hpages
  constructor
  · intro u
    constructor
    · rintro ⟨hu, hidx, hux⟩
      have huT := ((hTag' u).1 hu).resolve_right hux
      rw [hindex u huT] at hidx
      exact ⟨huT, hidx, h.ne_zero huT⟩
    · rintro ⟨hu, hidx, _⟩
      refine ⟨(hTag' u).2 (Or.inl hu), by rw [hindex u hu, hidx], ?_⟩
      rintro rfl
      exact h.not_tagIn_fresh hpages hfresh hu
  · rintro u ⟨hu, _⟩
    exact hget u hu _ (by decide)
  · rintro u ⟨hu, _⟩
    exact hget u hu _ (by decide)

theorem initNewTag_shape (h : HeapShape s held tags free) (hsize : size.toNat < 2 ^ 30)
    (hbase : x ≠ 0) (hfresh : FreshRun held ⟨x, pagesFor size⟩) :
    HeapShape (initNewTag x size s) (⟨x, pagesFor size⟩ :: held) (Function.update tags x [x])
        free ∧
      Detached (initNewTag x size s) x ∧
      KeepsLive (LiveTag s held tags 0)
        (LiveTag (initNewTag x size s) (⟨x, pagesFor size⟩ :: held) (Function.update tags x [x]) x)
        s (initNewTag x size s) ∧
      ((initNewTag x size s).get x .realSize).toNat = 4096 * (pagesFor size).toNat ∧
      (initNewTag x size s).get x .splitRight = 0 ∧ ¬ TagIn held tags x := by
  obtain ⟨hpos, hmax, _⟩ := pagesFor_spec hsize
  have hT := h.runs.separated_add (r := ⟨x, pagesFor size⟩) hbase hpos hfresh
  have hxT : TagIn held tags x ∨ x = x := Or.inr rfl
  have hnot : ¬ TagIn held tags x := h.runs.not_tagIn_fresh (r := ⟨x, pagesFor size⟩) hpos hfresh
  have hne : ∀ u, TagIn held tags u → u ≠ x := by
    rintro u hu rfl
    exact hnot hu
  have hspec := fun u hu => initNewTag_spec (s := s) (u := u) hT hxT hu size
  have hindex : ∀ u, TagIn held tags u → (initNewTag x size s).index u = s.index u := by
    intro u hu
    rw [(hspec u (Or.inl hu)).1, if_neg (hne u hu)]
  have hget : ∀ u, TagIn held tags u → ∀ f, f ≠ .index →
      (initNewTag x size s).get u f = s.get u f := by
    intro u hu f hf
    rw [(hspec u (Or.inl hu)).2 f hf, if_neg (hne u hu)]
  have hreal : ((initNewTag x size s).get x .realSize).toNat = 4096 * (pagesFor size).toNat :=
    initNewTag_realSize hT hxT hsize
  have hnull : ∀ f, f ≠ .index ∧ f ≠ .magic ∧ f ≠ .size ∧ f ≠ .realSize →
      (initNewTag x size s).get x f = 0 := fun f => initNewTag_null hT hxT
  have hdet : Detached (initNewTag x size s) x :=
    ⟨by rw [(hspec x hxT).1, if_pos rfl], hnull _ (by decide), hnull _ (by decide)⟩
  have hmagic : (initNewTag x size s).get x .magic = liballocMagic := by
    rw [(hspec x hxT).2 _ (by decide), if_pos rfl]
  refine ⟨h.add hbase hpos hmax hfresh hreal ⟨hnull _ (by decide), hnull _ (by decide)⟩ hmagic
    hdet hindex hget rfl rfl, hdet, ?_, hreal, hnull _ (by decide), hnot⟩
  exact KeepsLive.add (r := ⟨x, pagesFor size⟩) h.runs hpos hfresh hindex hget

/-! ### Giving the tag its size -/

/-- The tag in hand after `tag->size = size`. -/
theorem setSize_shape (h : HeapShape s held tags free) (ht : TagIn held tags t)
    (hdet : Detached s t) :
    HeapShape (s.set t .size size) held tags free ∧ Detached (s.set t .size size) t ∧
      KeepsLive (LiveTag s held tags t) (LiveTag (s.set t .size size) held tags t) s
        (s.set t .size size) := by
  have hT := h.runs.separated
  have hget : ∀ u, TagIn held tags u → ∀ f, f ≠ .size → (s.set t .size size).get u f = s.get u f := by
    intro u hu f hf
    rw [Liballoc.get_set hT s ht hu, if_neg fun hc => hf hc.2]
  have hindex : ∀ u, TagIn held tags u → (s.set t .size size).index u = s.index u :=
    fun u hu => Liballoc.index_set hT s ht hu (by decide) size
  refine ⟨h.congr hget rfl rfl, ?_, ?_⟩
  · exact ⟨by rw [hindex t ht, hdet.1], by rw [hget t ht _ (by decide), hdet.2.1],
      by rw [hget t ht _ (by decide), hdet.2.2]⟩
  · constructor
    · intro u
      constructor
      · rintro ⟨hu, hidx, hut⟩
        rw [hindex u hu] at hidx
        exact ⟨hu, hidx, hut⟩
      · rintro ⟨hu, hidx, hut⟩
        exact ⟨hu, by rw [hindex u hu, hidx], hut⟩
    · rintro u ⟨hu, _, hut⟩
      rw [Liballoc.get_set hT s ht hu, if_neg fun hc => hut hc.1]
    · rintro u ⟨hu, _⟩
      exact hget u hu _ (by decide)

/-- **`split_tag`** on the tag in hand, when the rest of it is a tag and `2 ^ 8` bytes at least. -/
theorem splitTag_shape (h : HeapShape s held tags free) (ht : TagIn held tags t)
    (hdet : Detached s t)
    (hright : s.get t .splitRight ≠ 0 → s.index (s.get t .splitRight) = -1)
    (hsize : s.get t .size = size)
    (hroom : size.toNat + 32 + 288 ≤ (s.get t .realSize).toNat) :
    ∃ tags' free', HeapShape (splitTag t s).2 held tags' free' ∧ TagIn held tags' t ∧
      Detached (splitTag t s).2 t ∧
      KeepsLive (LiveTag s held tags t) (LiveTag (splitTag t s).2 held tags' t) s (splitTag t s).2 ∧
      (splitTag t s).2.get t .size = size ∧
      ((splitTag t s).2.get t .realSize).toNat = size.toNat + 32 := by
  obtain ⟨r, hr, htr⟩ := ht
  have ht : TagIn held tags t := ⟨r, hr, htr⟩
  obtain ⟨xs, ys, htags⟩ := List.append_of_mem htr
  have hin := h.inHand ht
  have hroom' : size.toNat + 64 ≤ (s.get t .realSize).toNat := by omega
  have hstop := hin.stop
  obtain ⟨hn, hrem⟩ := hin.toNat_new hroom'
  have e := splitTag_effect hin hsize hroom'
  generalize (splitTag t s).2 = s' at e ⊢
  generalize t + 32 + size = n at hn e
  generalize s.get t .realSize - 32 - size = rem at hrem e
  obtain ⟨free', h', hdet'⟩ := h.splits hr htags hdet hright (by omega) (by omega) (by omega) e
  have hTag' := fun u => tagIn_splits h.runs hr htags (u := u) (n := n)
  have hsplits := e.splits_inserted
  refine ⟨_, free', h', (hTag' t).2 (Or.inl ht), hdet', ?_, ?_, ?_⟩
  · constructor
    · intro u
      constructor
      · rintro ⟨hu, hidx, hut⟩
        rcases (hTag' u).1 hu with huT | rfl
        · rw [e.index huT] at hidx
          exact ⟨huT, hidx, hut⟩
        · -- the new tag is free
          have hfree := listIndex_rest rem
          rw [e.index_new] at hidx
          omega
      · rintro ⟨hu, hidx, hut⟩
        exact ⟨(hTag' u).2 (Or.inl hu), by rw [e.index hu, hidx], hut⟩
    · rintro u ⟨hu, _, _⟩
      exact e.get_kept hu (Or.inr rfl)
    · rintro u ⟨hu, _, hut⟩
      rw [hsplits.realSize u (Or.inl hu), if_neg (e.ne hu), if_neg hut]
  · rw [e.get_kept ht (Or.inr rfl), hsize]
  · rw [hsplits.realSize t (Or.inl ht), if_neg (e.ne ht), if_pos rfl, toNat_sub_of_le (by omega)]
    omega

/-- The end of `malloc` gives the tag in hand its size, and splits it if what is left over counts as
positive and has a list. -/
theorem mallocFinish_cases (t size : UInt32) (s : Liballoc) :
    (mallocFinish t size s).2 = s.set t .size size ∨
      (0 < ((s.set t .size size).get t .realSize - size - 32 * 2).toInt32 ∧
        0 ≤ getexp ((s.set t .size size).get t .realSize - size - 32 * 2)) ∧
      (mallocFinish t size s).2 = (splitTag t (s.set t .size size)).2 := by
  rw [mallocFinish]
  split
  · rename_i hpos
    split
    · rename_i hexp
      exact Or.inr ⟨⟨hpos, hexp⟩, rfl⟩
    · exact Or.inl rfl
  · exact Or.inl rfl

theorem mallocFinish_initialized :
    (mallocFinish t size s).2.initialized = s.initialized := by
  rcases mallocFinish_cases t size s with heq | ⟨_, heq⟩
  · rw [heq]
    rfl
  · rw [heq, splitTag_eq, insertTag_initialized, carveTag_initialized]
    rfl

theorem mallocFinish_completePages :
    (mallocFinish t size s).2.completePages = s.completePages := by
  rcases mallocFinish_cases t size s with heq | ⟨_, heq⟩
  · rw [heq]
    rfl
  · rw [heq, splitTag_eq, insertTag_completePages, carveTag_completePages]
    rfl

/-- A remainder that counts as positive has not wrapped. -/
theorem splitFit {real : UInt32} (hroom : size.toNat + 32 ≤ real.toNat)
    (hpos : 0 < (real - size - 32 * 2).toInt32) : size.toNat + 64 ≤ real.toNat := by
  have hsub : (real - size).toNat = real.toNat - size.toNat := toNat_sub_of_le (by omega)
  have h64 : (32 * 2 : UInt32).toNat = 64 := rfl
  obtain ⟨_, hlt⟩ := toInt32_pos.1 hpos
  by_contra hsmall
  rw [toNat_sub_of_lt (by omega), hsub, h64] at hlt
  omega

/-- **The end of `malloc`**: with a large enough tag in hand, whose right neighbour is live, what is
left over goes back, and the tag in hand has the size asked for. -/
theorem mallocFinish_spec (size : UInt32) (h : HeapShape s held tags free) (ht : TagIn held tags t)
    (hdet : Detached s t)
    (hright : s.get t .splitRight ≠ 0 → s.index (s.get t .splitRight) = -1)
    (hroom : size.toNat + 32 ≤ (s.get t .realSize).toNat) :
    ∃ tags' free', HeapShape (mallocFinish t size s).2 held tags' free' ∧ TagIn held tags' t ∧
      Detached (mallocFinish t size s).2 t ∧
      KeepsLive (LiveTag s held tags t) (LiveTag (mallocFinish t size s).2 held tags' t) s
        (mallocFinish t size s).2 ∧
      (mallocFinish t size s).2.get t .size = size ∧
      size.toNat + 32 ≤ ((mallocFinish t size s).2.get t .realSize).toNat := by
  obtain ⟨h₁, hdet₁, hkeep₁⟩ : HeapShape (s.set t .size size) held tags free ∧ _ ∧ _ :=
    setSize_shape h ht hdet
  have hT := h.runs.separated
  have hget : ∀ f, f ≠ .size → (s.set t .size size).get t f = s.get t f := by
    intro f hf
    rw [Liballoc.get_set hT s ht ht, if_neg fun hc => hf hc.2]
  have hsize₁ : (s.set t .size size).get t .size = size := by
    rw [Liballoc.get_set hT s ht ht, if_pos ⟨rfl, rfl⟩]
  have hright₁ : (s.set t .size size).get t .splitRight ≠ 0 →
      (s.set t .size size).index ((s.set t .size size).get t .splitRight) = -1 := by
    rw [hget _ (by decide)]
    intro h0
    obtain ⟨r, hr, htr⟩ := ht
    rw [Liballoc.index_set hT s ⟨r, hr, htr⟩ ⟨r, hr, (h.runs.splitRight_mem hr htr h0).1⟩
      (by decide)]
    exact hright h0
  have hrealle := (h.runs.realSize_le ht).1
  rcases mallocFinish_cases t size s with heq | ⟨⟨hpos, hexp⟩, heq⟩
  · rw [heq]
    exact ⟨tags, free, h₁, ht, hdet₁, hkeep₁, hsize₁, by rw [hget _ (by decide)]; exact hroom⟩
  · rw [heq]
    rw [hget .realSize (by decide)] at hpos hexp
    have hsub : (s.get t .realSize - size).toNat = (s.get t .realSize).toNat - size.toNat :=
      toNat_sub_of_le (by omega)
    have h64 : (32 * 2 : UInt32).toNat = 64 := rfl
    have hle := splitFit hroom hpos
    have hrem : (s.get t .realSize - size - 32 * 2).toNat =
        (s.get t .realSize).toNat - size.toNat - 64 := by
      rw [toNat_sub_of_le (by omega), hsub, h64]
    have hquantum : 256 ≤ (s.get t .realSize).toNat - size.toNat - 64 := by
      by_contra hsmall
      rw [getexp_eq, hrem, if_pos (by omega)] at hexp
      exact absurd hexp (by decide)
    obtain ⟨tags', free', h', ht', hdet', hkeep', hsize', hreal'⟩ :=
      splitTag_shape h₁ ht hdet₁ hright₁ hsize₁ (by rw [hget _ (by decide)]; omega)
    exact ⟨tags', free', h', ht', hdet', hkeep₁.trans hkeep', hsize', by omega⟩

/-! ### `malloc` -/

/-- The first call clears arrays that are clear. -/
theorem liballocInit_eq
    (hclear : s.initialized = false → ∀ i, 0 ≤ i → s.freePages i = 0 ∧ s.completePages i = 0) :
    liballocInit s = { s with initialized := true } := by
  rw [liballocInit]
  by_cases hinit : s.initialized = true
  · rw [if_pos hinit, ← hinit]
  · rw [if_neg hinit]
    have hzero := hclear (Bool.eq_false_iff.2 hinit)
    have hloop := @forUp_inv Liballoc (fun _ c => c = s)
      (fun i c => { c with
        freePages := Function.update c.freePages i 0
        completePages := Function.update c.completePages i 0 }) 32 0 s rfl
      (fun i c _ _ hc => by
        subst hc
        obtain ⟨h1, h2⟩ := hzero i (by omega)
        have hpages := Function.update_eq_self (i : ℤ) c.freePages
        have hcomplete := Function.update_eq_self (i : ℤ) c.completePages
        rw [h1] at hpages
        rw [h2] at hcomplete
        rw [hpages, hcomplete])
    rw [hloop]

/-- The first call leaves the shape as it is. -/
theorem HeapShape.init (h : HeapShape s held tags free)
    (hclear : s.initialized = false → held = []) :
    liballocInit s = { s with initialized := true } ∧
      HeapShape { s with initialized := true } held tags free := by
  constructor
  · apply liballocInit_eq
    intro hi i hi0
    have hnil : free i = [] := by
      apply List.eq_nil_iff_forall_not_mem.2
      intro u hu
      obtain ⟨r, hr, _⟩ := ((h.lists.mem i hi0 u).1 hu).1
      rw [hclear hi] at hr
      cases hr
    rw [h.lists.head i hi0, h.count i hi0, hnil]
    exact ⟨rfl, rfl⟩
  · exact h.congr (fun _ _ _ _ => rfl) rfl rfl

/-- What `malloc` has done when it returns `ptr`: the shape is there, and behind `ptr` is a live tag
that was not live before, with the size asked for. -/
def Allocated (s : Liballoc) (held : List PageRun) (tags : UInt32 → List UInt32) (size ptr : UInt32)
    (s' : Liballoc) (held' : List PageRun) : Prop :=
  ∃ t tags' free', HeapShape s' held' tags' free' ∧ TagIn held' tags' t ∧ s'.index t = -1 ∧
    ptr = t + 32 ∧ ptr ≠ 0 ∧ s'.get t .size = size ∧
    size.toNat + 32 ≤ (s'.get t .realSize).toNat ∧ ¬ (TagIn held tags t ∧ s.index t = -1) ∧
    KeepsLive (LiveTag s held tags 0) (LiveTag s' held' tags' t) s s'

/-- The place behind a tag's header. -/
theorem toNat_add_32 (h : t.toNat + 32 < 2 ^ 32) : (t + 32).toNat = t.toNat + 32 :=
  toNat_add_of_lt h

theorem add_32_ne_zero (h : t.toNat + 64 ≤ 2 ^ 32) : t + 32 ≠ 0 := by
  intro h0
  have hadd := toNat_add_32 (t := t) (by omega)
  rw [h0, show (0 : UInt32).toNat = 0 from rfl] at hadd
  omega

/-- With a tag from list `i`. -/
theorem malloc_found (h : HeapShape s held tags free)
    (ht : TagIn held tags t) (hi : 0 ≤ s.index t)
    (hfit : size.toNat + 64 ≤ (s.get t .realSize).toNat) :
    Allocated s held tags size (t + 32) (mallocFinish t size (takeTag t (s.index t) s)).2 held := by
  obtain ⟨⟨free₁, h₁⟩, hdet₁, hkeep₁, hsame₁⟩ := takeTag_spec h ht hi
  have hT := h.runs.separated
  have hright : (takeTag t (s.index t) s).get t .splitRight ≠ 0 →
      (takeTag t (s.index t) s).index ((takeTag t (s.index t) s).get t .splitRight) = -1 := by
    rw [hsame₁ t ht _ (by decide)]
    intro h0
    -- the tag was free, so its neighbour was live
    have hlive := (h.alone t ht h0).resolve_left (by omega)
    obtain ⟨r, hr, htr⟩ := ht
    have hmem : TagIn held tags (s.get t .splitRight) :=
      ⟨r, hr, (h.runs.splitRight_mem hr htr h0).1⟩
    exact ((hkeep₁.iff _).2 ⟨hmem, hlive, hT.ne_zero hmem⟩).2.1
  have hreal := hsame₁ t ht .realSize (by decide)
  obtain ⟨tags', free', h', ht', hdet', hkeep', hsize', hreal'⟩ :=
    mallocFinish_spec size h₁ ht hdet₁ hright (by rw [hreal]; omega)
  have hle := (h.runs.realSize_le ht).2
  refine ⟨t, tags', free', h', ht', hdet'.1, rfl, add_32_ne_zero (by omega), hsize', hreal', ?_,
    hkeep₁.trans hkeep'⟩
  rintro ⟨_, hidx⟩
  omega

/-- With a new run. -/
theorem malloc_new (h : HeapShape s held tags free) (hsize : size.toNat < 2 ^ 30) (hbase : x ≠ 0)
    (hfresh : FreshRun held ⟨x, pagesFor size⟩) :
    Allocated s held tags size (x + 32) (mallocFinish x size (initNewTag x size s)).2
      (⟨x, pagesFor size⟩ :: held) := by
  obtain ⟨hpos, _, henough⟩ := pagesFor_spec hsize
  obtain ⟨h₁, hdet₁, hkeep₁, hreal₁, hright₁, hnot⟩ := initNewTag_shape h hsize hbase hfresh
  have hx : TagIn (⟨x, pagesFor size⟩ :: held) (Function.update tags x [x]) x :=
    (tagIn_add h.runs hfresh hpos).2 (Or.inr rfl)
  obtain ⟨tags', free', h', ht', hdet', hkeep', hsize', hreal'⟩ :=
    mallocFinish_spec size h₁ hx hdet₁ (fun h0 => absurd hright₁ h0) (by rw [hreal₁]; exact henough)
  have hle := (h₁.runs.realSize_le hx).2
  exact ⟨x, tags', free', h', ht', hdet'.1, rfl, add_32_ne_zero (by omega), hsize', hreal',
    fun hc => hnot hc.1, hkeep₁.trans hkeep'⟩

/-- `malloc` with the tag its search came out at. -/
theorem malloc_of_tag {s₀ : Liballoc} (hinit : liballocInit s = s₀) (h0 : t ≠ 0)
    (hsearch : mallocSearch size s₀ (s₀.freePages (listIndex size.toNat)) = some t)
    (liballocAlloc : UInt32 → UInt32) :
    malloc liballocAlloc size s = some ⟨t + 32,
      (mallocFinish t size (takeTag t (listIndex size.toNat) s₀)).2, none⟩ := by
  have hindex : atLeastMinexp (getexp size + 0) = listIndex size.toNat := by
    rw [Int.add_zero, atLeastMinexp_getexp]
  simp only [malloc, hinit, hindex, hsearch, Option.map_some, if_neg h0]
  rfl

/-- `malloc` when its search came out at none. -/
theorem malloc_of_none {s₀ : Liballoc} (hinit : liballocInit s = s₀)
    (hsearch : mallocSearch size s₀ (s₀.freePages (listIndex size.toNat)) = some 0)
    (liballocAlloc : UInt32 → UInt32) (hx : liballocAlloc (pagesFor size) = x) :
    malloc liballocAlloc size s = some (if x = 0 then ⟨0, s₀, none⟩
      else ⟨x + 32, (mallocFinish x size (initNewTag x size s₀)).2, some ⟨x, pagesFor size⟩⟩) := by
  have hindex : atLeastMinexp (getexp size + 0) = listIndex size.toNat := by
    rw [Int.add_zero, atLeastMinexp_getexp]
  simp only [malloc, hinit, hindex, hsearch, Option.map_some, if_true, hx]
  rfl

/-- **`malloc`** always returns.  Either it returns `NULL`, and nothing has changed but that the heap
is initialized, or it has allocated. -/
theorem malloc_spec (h : HeapShape s held tags free) (hsize : size.toNat < 2 ^ 30)
    (hclear : s.initialized = false → held = []) {liballocAlloc : UInt32 → UInt32}
    (halloc : ∀ n, liballocAlloc n ≠ 0 → FreshRun held ⟨liballocAlloc n, n⟩) :
    ∃ res, malloc liballocAlloc size s = some res ∧ res.heap.initialized = true ∧
      ((res.ptr = 0 ∧ res.obtained = none ∧ res.heap = { s with initialized := true }) ∨
        Allocated s held tags size res.ptr res.heap (res.obtained.toList ++ held)) := by
  obtain ⟨s₀, hs₀⟩ : ∃ c : Liballoc, c = { s with initialized := true } := ⟨_, rfl⟩
  obtain ⟨hinit, h₀⟩ := h.init hclear
  rw [← hs₀] at hinit h₀
  have hkeep : ∀ {s' held' ptr}, Allocated s₀ held tags size ptr s' held' →
      Allocated s held tags size ptr s' held' := by
    intro s' held' ptr ha
    rw [hs₀] at ha
    obtain ⟨t, tags', free', hshape, ht, hidx, hptr, hne, hsz, hreal, hnot, hk⟩ := ha
    exact ⟨t, tags', free', hshape, ht, hidx, hptr, hne, hsz, hreal, hnot,
      ⟨hk.iff, hk.size, hk.realSize⟩⟩
  have hinit₀ : s₀.initialized = true := by rw [hs₀]
  obtain ⟨hi8, _⟩ := listIndex_bounds (n := size.toNat) size.toNat_lt
  have hsearch := mallocSearch_eq h₀.lists h₀.runs.separated (i := listIndex size.toNat) (by omega) size
  cases hfind : (free (listIndex size.toNat)).find? fun t => size + 32 ≤ s₀.get t .realSize - 32 with
  | none =>
    rw [hfind, Option.getD_none] at hsearch
    rw [malloc_of_none hinit hsearch liballocAlloc rfl]
    by_cases hrun : liballocAlloc (pagesFor size) = 0
    · exact ⟨_, rfl, by rw [if_pos hrun, hinit₀], Or.inl (by rw [if_pos hrun]; exact ⟨rfl, rfl, hs₀⟩)⟩
    · have hnew := hkeep (malloc_new h₀ hsize hrun (halloc _ hrun))
      have hdone : (mallocFinish (liballocAlloc (pagesFor size)) size
          (initNewTag (liballocAlloc (pagesFor size)) size s₀)).2.initialized = true :=
        mallocFinish_initialized.trans hinit₀
      rw [if_neg hrun]
      generalize (mallocFinish (liballocAlloc (pagesFor size)) size (initNewTag _ size s₀)).2 = s'
        at hnew hdone ⊢
      exact ⟨⟨_, s', some ⟨_, pagesFor size⟩⟩, rfl, hdone, Or.inr hnew⟩
  | some t =>
    obtain ⟨hT, hidx⟩ := (h₀.lists.mem _ (by omega) t).1 (List.mem_of_find?_eq_some hfind)
    have hfit := List.find?_some hfind
    rw [decide_eq_true_iff, UInt32.le_iff_toNat_le] at hfit
    have h32 : (32 : UInt32).toNat = 32 := rfl
    have hheader := h₀.runs.header t hT
    rw [toNat_add_of_lt (by omega), toNat_sub_of_le (by omega), h32] at hfit
    have hfound := hkeep (malloc_found h₀ hT (by omega) (by omega))
    rw [hfind, Option.getD_some] at hsearch
    rw [malloc_of_tag hinit (h₀.runs.ne_zero hT) hsearch liballocAlloc]
    have hdone : (mallocFinish t size (takeTag t (listIndex size.toNat) s₀)).2.initialized = true :=
      (mallocFinish_initialized.trans (takeTag_initialized _)).trans hinit₀
    rw [hidx] at hfound
    generalize (mallocFinish t size (takeTag t (listIndex size.toNat) s₀)).2 = s' at hfound hdone ⊢
    exact ⟨⟨_, s', none⟩, rfl, hdone, Or.inr hfound⟩

end Malloc

end CometOS
