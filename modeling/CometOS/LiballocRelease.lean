import CometOS.LiballocBytes
import CometOS.LiballocMeld

/-!
# What `free` needs

`free` looks at the runs, their tags and the lists, and asks for less than a heap in order: other tags
may be apart from the runs' tags anywhere, so that runs that overlap one another's free bytes do not
matter.  `Releasable` says what it asks for.  Each turn of its loops keeps that, and writes nothing but
headers.
-/

namespace CometOS

open ByteMemory LinkedList Loop Record Run Tiling Word32

/-- The tags `T`, among them those of the runs, are apart and in their lists; of two neighbours in a
run one is live. -/
structure Releasable (s : Liballoc) (held : List PageRun) (tags : UInt32 → List UInt32)
    (T : UInt32 → Prop) (free : ℤ → List UInt32) : Prop where
  runs : RunsOk s held tags
  within : ∀ u, TagIn held tags u → T u
  separated : boundaryTag.Separated T
  lists : FreeLists s T free
  kind : ∀ t, TagIn held tags t → s.index t = -1 ∨ 0 ≤ s.index t
  alone : ∀ t, TagIn held tags t → s.get t .splitRight ≠ 0 →
    s.index t = -1 ∨ s.index (s.get t .splitRight) = -1

/-- The live tags other than the one in hand stay live, and keep their headers and sizes. -/
def Spares (T : UInt32 → Prop) (s : Liballoc) (hand : UInt32) (s' : Liballoc) (hand' : UInt32) : Prop :=
  ∀ u, T u → s.index u = -1 → u ≠ hand →
    s'.index u = -1 ∧ u ≠ hand' ∧ ∀ f, SizeField f → s'.get u f = s.get u f

theorem Spares.refl {T : UInt32 → Prop} {s : Liballoc} {t : UInt32} : Spares T s t s t :=
  fun _ _ hidx hne => ⟨hidx, hne, fun _ _ => rfl⟩

theorem Spares.trans {T : UInt32 → Prop} {s₁ s₂ s₃ : Liballoc} {t₁ t₂ t₃ : UInt32}
    (h : Spares T s₁ t₁ s₂ t₂) (h' : Spares T s₂ t₂ s₃ t₃) : Spares T s₁ t₁ s₃ t₃ := by
  intro u hu hidx hne
  obtain ⟨hidx₂, hne₂, hget₂⟩ := h u hu hidx hne
  obtain ⟨hidx₃, hne₃, hget₃⟩ := h' u hu hidx₂ hne₂
  exact ⟨hidx₃, hne₃, fun f hf => (hget₃ f hf).trans (hget₂ f hf)⟩

theorem HeapShape.releasable {s : Liballoc} {held : List PageRun} {tags : UInt32 → List UInt32}
    {free : ℤ → List UInt32} (h : HeapShape s held tags free) :
    Releasable s held tags (TagIn held tags) free :=
  ⟨h.runs, fun _ hu => hu, h.runs.separated, h.lists, fun _ hu => (h.index_cases hu).imp And.left
    fun hi => by omega, h.alone⟩

section Release

variable {s s' : Liballoc} {held : List PageRun} {tags : UInt32 → List UInt32}
  {free : ℤ → List UInt32} {r : PageRun} {t u x l d hand : UInt32} {T T' : UInt32 → Prop}
  {xs ys : List UInt32}

theorem MeldEffect.mono (e : MeldEffect T s s' l d x) (hsub : ∀ u, T' u → T u) :
    MeldEffect T' s s' l d x where
  unlinks := ⟨fun u hu => e.unlinks.index u (hsub u hu), fun u hu => e.unlinks.next u (hsub u hu),
    fun u hu => e.unlinks.prev u (hsub u hu), e.unlinks.freePages⟩
  melds := ⟨fun u hu => e.melds.realSize u (hsub u hu), fun u hu => e.melds.splitRight u (hsub u hu),
    fun u hu => e.melds.splitLeft u (hsub u hu)⟩
  keeps u hu := e.keeps u (hsub u hu)
  completePages := e.completePages
  initialized := e.initialized

/-- A step that leaves the tags and the array alone. -/
theorem Releasable.congr (h : Releasable s held tags T free)
    (hget : ∀ u, T u → ∀ f, s'.get u f = s.get u f) (hpages : s'.freePages = s.freePages) :
    Releasable s' held tags T free where
  runs := h.runs.congr fun u hu =>
    ⟨hget u (h.within u hu) _, hget u (h.within u hu) _, hget u (h.within u hu) _⟩
  within := h.within
  separated := h.separated
  lists := by
    have hindex : ∀ u, T u → s'.index u = s.index u := by
      intro u hu
      rw [Liballoc.index, hget u hu]
      rfl
    exact h.lists.congr hpages
      (fun u hu _ => ⟨hu, hindex u hu, hget u hu _, hget u hu _⟩) fun u hu _ => ⟨hu, hindex u hu⟩
  kind u hu := by
    rw [Liballoc.index, hget u (h.within u hu)]
    exact h.kind u hu
  alone u hu := by
    have hindex : ∀ v, T v → s'.index v = s.index v := by
      intro v hv
      rw [Liballoc.index, hget v hv]
      rfl
    rw [hget u (h.within u hu), hindex u (h.within u hu)]
    intro h0
    obtain ⟨r, hr, hur⟩ := hu
    rw [hindex _ (h.within _ ⟨r, hr, (h.runs.splitRight_mem hr hur h0).1⟩)]
    exact h.alone u ⟨r, hr, hur⟩ h0

/-! ### One turn of either loop -/

/-- **One melting** and the live tags.  The tag in hand is `hand` before and `l` after. -/
theorem MeldEffect.keepsLive (e : MeldEffect (TagIn held tags) s s' l d x) (h : RunsOk s held tags)
    (hr : r ∈ held) (htags : tags r.base = xs ++ l :: d :: ys)
    (hx : (x = l ∧ hand = d) ∨ (x = d ∧ hand = l)) (hi : 0 ≤ s.index x) (hld : l ≠ d) :
    TagIn held (Function.update tags r.base (xs ++ l :: ys)) l ∧
      KeepsLive (LiveTag s held tags hand)
        (LiveTag s' held (Function.update tags r.base (xs ++ l :: ys)) l) s s' := by
  have hTag' := fun v => tagIn_melds h hr htags (u := v)
  have hl : TagIn held tags l := ⟨r, hr, by rw [htags]; simp⟩
  have hpair : ∀ v, v ≠ x → v ≠ hand → v ≠ l ∧ v ≠ d := by
    intro v h1 h2
    rcases hx with ⟨rfl, rfl⟩ | ⟨rfl, rfl⟩
    · exact ⟨h1, h2⟩
    · exact ⟨h2, h1⟩
  refine ⟨(hTag' l).2 ⟨hl, hld⟩, ?_⟩
  constructor
  · intro v
    constructor
    · rintro ⟨hv, hidx, hvl⟩
      obtain ⟨hvT, hvd⟩ := (hTag' v).1 hv
      have hvx : v ≠ x := by
        rintro rfl
        exact hx.elim (fun hc => hvl hc.1) fun hc => hvd hc.1
      rw [e.unlinks.index v hvT, if_neg hvx] at hidx
      refine ⟨hvT, hidx, ?_⟩
      rintro rfl
      exact hx.elim (fun hc => hvd hc.2) fun hc => hvl hc.2
    · rintro ⟨hv, hidx, hvh⟩
      have hvx : v ≠ x := by
        rintro rfl
        omega
      obtain ⟨hvl, hvd⟩ := hpair v hvx hvh
      exact ⟨(hTag' v).2 ⟨hv, hvd⟩, e.unlinks.index_of_neg hv hidx, hvl⟩
  · rintro v ⟨hv, _⟩
    exact e.keeps v hv _ (Or.inr rfl)
  · rintro v ⟨hv, hidx, hvh⟩
    have hvx : v ≠ x := by
      rintro rfl
      omega
    rw [e.melds.realSize v hv, if_neg (hpair v hvx hvh).1]

/-- **Melting keeps what `free` needs**: `x` is the free one of the two. -/
theorem Releasable.melds (h : Releasable s held tags T free) (hr : r ∈ held)
    (htags : tags r.base = xs ++ l :: d :: ys) (hx : (x = l ∧ hand = d) ∨ (x = d ∧ hand = l))
    (hi : 0 ≤ s.index x) (hdet : Detached s hand) (e : MeldEffect T s s' l d x) :
    ∃ tags' free', Releasable s' held tags' T free' ∧ l ∈ tags' r.base ∧ Detached s' l ∧
      KeepsLive (LiveTag s held tags hand) (LiveTag s' held tags' l) s s' ∧ Spares T s hand s' l := by
  have hl : TagIn held tags l := ⟨r, hr, by rw [htags]; simp⟩
  have hd : TagIn held tags d := ⟨r, hr, by rw [htags]; simp⟩
  have hxT : T x := by
    rcases hx with ⟨rfl, _⟩ | ⟨rfl, _⟩
    · exact h.within _ hl
    · exact h.within _ hd
  have hld : l ≠ d := by
    rintro rfl
    rcases hx with ⟨rfl, rfl⟩ | ⟨rfl, rfl⟩ <;> exact absurd hdet.1 (by omega)
  have he := e.mono h.within
  have hkeep := (he.keepsLive h.runs hr htags hx hi hld).2
  have hldet : Detached s' l := by
    apply e.unlinks.detached h.lists h.separated hxT hi (h.within l hl)
    rcases hx with ⟨rfl, _⟩ | ⟨_, rfl⟩
    · exact Or.inl rfl
    · exact Or.inr hdet
  refine ⟨_, _, ⟨h.runs.melds hr htags he.melds, ?_, h.separated,
    h.lists.remove h.separated hxT hi e.unlinks, ?_, ?_⟩, by rw [Function.update_self]; simp, hldet,
    hkeep, ?_⟩
  · exact fun u hu => h.within u ((tagIn_melds h.runs hr htags).1 hu).1
  · intro u hu
    have huT := ((tagIn_melds h.runs hr htags).1 hu).1
    rw [he.unlinks.index u huT]
    split
    · exact Or.inl rfl
    · exact h.kind u huT
  · intro u hu h0
    have huT := ((tagIn_melds h.runs hr htags).1 hu).1
    by_cases hul : u = l
    · rw [hul]
      exact Or.inl hldet.1
    · rw [he.melds.splitRight u huT, if_neg hul] at h0 ⊢
      obtain ⟨r', hr', hur⟩ := huT
      have hright : TagIn held tags (s.get u .splitRight) :=
        ⟨r', hr', (h.runs.splitRight_mem hr' hur h0).1⟩
      exact (h.alone u ⟨r', hr', hur⟩ h0).imp (he.unlinks.index_of_neg ⟨r', hr', hur⟩)
        (he.unlinks.index_of_neg hright)
  · intro u hu hidx hne
    have hul : u ≠ l := by
      rintro rfl
      rcases hx with ⟨rfl, _⟩ | ⟨_, rfl⟩
      · omega
      · exact hne rfl
    refine ⟨e.unlinks.index_of_neg hu hidx, hul, ?_⟩
    rintro f (rfl | rfl | rfl)
    · exact e.keeps u hu _ (Or.inl rfl)
    · exact e.keeps u hu _ (Or.inr rfl)
    · rw [e.melds.realSize u hu, if_neg hul]

/-- `melt_left` and `remove_tag`, when the tag on the left is free: what is left of it is live. -/
theorem Releasable.meltLeft (h : Releasable s held tags T free) (hr : r ∈ held)
    (htr : t ∈ tags r.base) (hdet : Detached s t) (hleft : l = s.get t .splitLeft) (h0 : l ≠ 0)
    (hi : 0 ≤ s.index l) (hs' : s' = removeTag l (meldTag l t s)) :
    (∃ xs ys, tags r.base = xs ++ l :: t :: ys) ∧ MeldEffect T s s' l t l ∧ KeepsBytes T s s' ∧
      (s'.get l .splitLeft ≠ 0 → s'.index (s'.get l .splitLeft) = -1) := by
  obtain ⟨hlr, hback⟩ : l ∈ tags r.base ∧ s.get l .splitRight = t := by
    rw [hleft] at h0 ⊢
    exact h.runs.splitLeft_mem hr htr h0
  have hl : T l := h.within l ⟨r, hr, hlr⟩
  have ht : T t := h.within t ⟨r, hr, htr⟩
  obtain ⟨xs, ys, htags⟩ := h.runs.adjacent hr hlr (by rw [hback]; exact h.separated.ne_zero ht)
  rw [hback] at htags
  have hlt : l ≠ t := by
    rintro rfl
    have := hdet.1
    omega
  have hright : s.get t .splitRight ≠ 0 → T (s.get t .splitRight) :=
    fun hw => h.within _ ⟨r, hr, (h.runs.splitRight_mem hr htr hw).1⟩
  have hlist := h.lists.neighbours h.separated hl hi
  have he : MeldEffect T s s' l t l := by
    rw [hs']
    exact removeTag_meldTag h.separated hl ht hlt hright hlist
  have hsame : ∀ f, f = .prev ∨ f = .next → (meldTag l t s).get l f = s.get l f := by
    rintro f (rfl | rfl) <;> rw [meldTag_get h.separated hl ht hlt hright hl] <;> simp
  refine ⟨⟨xs, ys, htags⟩, he, ?_, ?_⟩
  · rw [hs']
    refine (meldTag_bytes h.separated hl ht hlt hright).trans (removeTag_bytes h.separated hl ?_)
    have hprev := hsame .prev (Or.inl rfl)
    have hnext := hsame .next (Or.inr rfl)
    exact ⟨by rw [hprev]; exact hlist.prev, by rw [hnext]; exact hlist.next,
      by rw [hprev]; exact hlist.prev_ne, by rw [hnext]; exact hlist.next_ne⟩
  · have hsplit : s'.get l .splitLeft = s.get l .splitLeft := by
      rw [he.melds.splitLeft l hl, if_neg (h.runs.splitRight_ne_left hr htags).symm]
    rw [hsplit]
    intro hw
    obtain ⟨hmem, hnext⟩ := h.runs.splitLeft_mem hr hlr hw
    have hm : TagIn held tags (s.get l .splitLeft) := ⟨r, hr, hmem⟩
    apply he.unlinks.index_of_neg (h.within _ hm)
    have halone := h.alone _ hm (by rw [hnext]; exact h.separated.ne_zero hl)
    rw [hnext] at halone
    exact halone.resolve_right (by omega)

/-- `absorb_right`, when the tag on the right is free: what was right of that is live. -/
theorem Releasable.absorbRight (h : Releasable s held tags T free) (hr : r ∈ held)
    (htr : t ∈ tags r.base) (hdet : Detached s t) (hd : d = s.get t .splitRight) (h0 : d ≠ 0)
    (hi : 0 ≤ s.index d) (hleft : s.get t .splitLeft ≠ 0 → s.index (s.get t .splitLeft) = -1)
    (hs' : s' = meldTag t d (removeTag d s)) :
    (∃ xs ys, tags r.base = xs ++ t :: d :: ys) ∧ MeldEffect T s s' t d d ∧ KeepsBytes T s s' ∧
      (s'.get t .splitLeft ≠ 0 → s'.index (s'.get t .splitLeft) = -1) ∧
      (s'.get t .splitRight ≠ 0 → s'.index (s'.get t .splitRight) = -1) := by
  rw [hd] at h0
  obtain ⟨xs, ys, htags⟩ := h.runs.adjacent hr htr h0
  have hdr := (h.runs.splitRight_mem hr htr h0).1
  rw [← hd] at htags hdr
  have ht : T t := h.within t ⟨r, hr, htr⟩
  have hdT : T d := h.within d ⟨r, hr, hdr⟩
  have htd : t ≠ d := by
    rintro rfl
    have := hdet.1
    omega
  have hright : s.get d .splitRight ≠ 0 → T (s.get d .splitRight) :=
    fun hw => h.within _ ⟨r, hr, (h.runs.splitRight_mem hr hdr hw).1⟩
  have hlist := h.lists.neighbours h.separated hdT hi
  have he : MeldEffect T s s' t d d := by
    rw [hs']
    exact meldTag_removeTag h.separated ht hdT htd hright hlist
  refine ⟨⟨xs, ys, htags⟩, he, ?_, ?_, ?_⟩
  · rw [hs']
    refine (removeTag_bytes h.separated hdT hlist).trans
      (meldTag_bytes h.separated ht hdT htd ?_)
    rw [removeTag_get_of_ne h.separated hdT hlist hdT (by decide)]
    exact hright
  · rw [he.melds.splitLeft t ht, if_neg (h.runs.splitRight_ne_left hr htags).symm]
    intro hw
    exact he.unlinks.index_of_neg
      (h.within _ ⟨r, hr, (h.runs.splitLeft_mem hr htr hw).1⟩) (hleft hw)
  · rw [he.melds.splitRight t ht, if_pos rfl]
    intro hw
    have hlive := (h.alone d ⟨r, hr, hdr⟩ hw).resolve_left (by omega)
    exact he.unlinks.index_of_neg (hright hw) hlive

/-! ### The loops -/

/-- What the loops have done with tag `t` of run `r`: `t'` is in hand, and so far only headers have
been written. -/
structure Melted (s : Liballoc) (held : List PageRun) (tags : UInt32 → List UInt32)
    (T : UInt32 → Prop) (r : PageRun) (t : UInt32) (s' : Liballoc) (tags' : UInt32 → List UInt32)
    (free' : ℤ → List UInt32) (t' : UInt32) : Prop where
  ready : Releasable s' held tags' T free'
  mem : t' ∈ tags' r.base
  detached : Detached s' t'
  live : KeepsLive (LiveTag s held tags t) (LiveTag s' held tags' t') s s'
  spares : Spares T s t s' t'
  bytes : KeepsBytes T s s'
  completePages : s'.completePages = s.completePages

theorem Melted.refl (h : Releasable s held tags T free) (htr : t ∈ tags r.base)
    (hdet : Detached s t) : Melted s held tags T r t s tags free t :=
  ⟨h, htr, hdet, KeepsLive.refl, Spares.refl, KeepsBytes.refl, rfl⟩

theorem Melted.trans {s₁ s₂ : Liballoc} {tags₁ tags₂ : UInt32 → List UInt32}
    {free₁ free₂ : ℤ → List UInt32} {t₁ t₂ : UInt32}
    (h : Melted s held tags T r t s₁ tags₁ free₁ t₁)
    (h' : Melted s₁ held tags₁ T r t₁ s₂ tags₂ free₂ t₂) :
    Melted s held tags T r t s₂ tags₂ free₂ t₂ where
  ready := h'.ready
  mem := h'.mem
  detached := h'.detached
  live := h.live.trans h'.live
  spares := h.spares.trans h'.spares
  bytes := h.bytes.trans h'.bytes
  completePages := h'.completePages.trans h.completePages

/-- A neighbour that is not free is live. -/
theorem Releasable.live_of_not (h : Releasable s held tags T free)
    (hu : u ≠ 0 → TagIn held tags u) (hnot : ¬ (u ≠ 0 ∧ 0 ≤ s.index u)) (h0 : u ≠ 0) :
    s.index u = -1 :=
  (h.kind u (hu h0)).resolve_right fun hi => hnot ⟨h0, hi⟩

theorem meltLeftLoop_stop (hc : ¬ (s.get t .splitLeft ≠ 0 ∧ 0 ≤ s.index (s.get t .splitLeft))) :
    meltLeftLoop t s = some (t, s) := by
  rw [meltLeftLoop, show (2 ^ 32 : ℕ) = 2 ^ 32 - 1 + 1 from rfl, whileLoop_succ,
    if_neg (by rwa [decide_eq_true_iff])]

/-- The loop melts once if what is left of the free tag is live. -/
theorem meltLeftLoop_once (hc : s.get t .splitLeft ≠ 0 ∧ 0 ≤ s.index (s.get t .splitLeft))
    (hl : l = s.get t .splitLeft) (hs' : s' = removeTag l (meldTag l t s))
    (hlive : s'.get l .splitLeft ≠ 0 → s'.index (s'.get l .splitLeft) = -1) :
    meltLeftLoop t s = some (l, s') := by
  rw [meltLeftLoop, show (2 ^ 32 : ℕ) = 2 ^ 32 - 1 + 1 from rfl, whileLoop_succ,
    if_pos (decide_eq_true hc), Option.bind_some, meltLeft_eq, ← hl, ← hs',
    show (2 ^ 32 - 1 : ℕ) = 2 ^ 32 - 2 + 1 from rfl, whileLoop_succ, if_neg]
  intro hd
  obtain ⟨h0, hi⟩ := of_decide_eq_true hd
  rw [hlive h0] at hi
  omega

theorem absorbRightLoop_stop (hc : ¬ (s.get t .splitRight ≠ 0 ∧ 0 ≤ s.index (s.get t .splitRight))) :
    absorbRightLoop t s = some (t, s) := by
  rw [absorbRightLoop, show (2 ^ 32 : ℕ) = 2 ^ 32 - 1 + 1 from rfl, whileLoop_succ,
    if_neg (by rwa [decide_eq_true_iff])]

/-- Likewise to the right. -/
theorem absorbRightLoop_once (hc : s.get t .splitRight ≠ 0 ∧ 0 ≤ s.index (s.get t .splitRight))
    (hd : d = s.get t .splitRight) (hs' : s' = meldTag t d (removeTag d s))
    (hlive : s'.get t .splitRight ≠ 0 → s'.index (s'.get t .splitRight) = -1) :
    absorbRightLoop t s = some (t, s') := by
  rw [absorbRightLoop, show (2 ^ 32 : ℕ) = 2 ^ 32 - 1 + 1 from rfl, whileLoop_succ,
    if_pos (decide_eq_true hc), Option.bind_some, absorbRight_eq, ← hd, ← hs',
    show (2 ^ 32 - 1 : ℕ) = 2 ^ 32 - 2 + 1 from rfl, whileLoop_succ, if_neg]
  intro he
  obtain ⟨h0, hi⟩ := of_decide_eq_true he
  rw [hlive h0] at hi
  omega

theorem Releasable.meltLeftLoop (h : Releasable s held tags T free) (hr : r ∈ held)
    (htr : t ∈ tags r.base) (hdet : Detached s t) :
    ∃ t' s' tags' free', CometOS.meltLeftLoop t s = some (t', s') ∧
      Melted s held tags T r t s' tags' free' t' ∧
      (s'.get t' .splitLeft ≠ 0 → s'.index (s'.get t' .splitLeft) = -1) := by
  by_cases hc : s.get t .splitLeft ≠ 0 ∧ 0 ≤ s.index (s.get t .splitLeft)
  · obtain ⟨⟨xs, ys, htags⟩, he, hbytes, hlive⟩ := h.meltLeft hr htr hdet rfl hc.1 hc.2 rfl
    have hloop := meltLeftLoop_once hc rfl rfl hlive
    generalize removeTag (s.get t .splitLeft) (meldTag (s.get t .splitLeft) t s) = s'
      at he hbytes hlive hloop
    obtain ⟨tags', free', h', hmem, hdet', hkeep, hspares⟩ :=
      h.melds hr htags (Or.inl ⟨rfl, rfl⟩) hc.2 hdet he
    exact ⟨_, s', tags', free', hloop,
      ⟨h', hmem, hdet', hkeep, hspares, hbytes, he.completePages⟩, hlive⟩
  · refine ⟨t, s, tags, free, meltLeftLoop_stop hc, Melted.refl h htr hdet, ?_⟩
    exact h.live_of_not (fun h0 => ⟨r, hr, (h.runs.splitLeft_mem hr htr h0).1⟩) hc

theorem Releasable.absorbRightLoop (h : Releasable s held tags T free) (hr : r ∈ held)
    (htr : t ∈ tags r.base) (hdet : Detached s t)
    (hleft : s.get t .splitLeft ≠ 0 → s.index (s.get t .splitLeft) = -1) :
    ∃ s' tags' free', CometOS.absorbRightLoop t s = some (t, s') ∧
      Melted s held tags T r t s' tags' free' t ∧
      (s'.get t .splitLeft ≠ 0 → s'.index (s'.get t .splitLeft) = -1) ∧
      (s'.get t .splitRight ≠ 0 → s'.index (s'.get t .splitRight) = -1) := by
  by_cases hc : s.get t .splitRight ≠ 0 ∧ 0 ≤ s.index (s.get t .splitRight)
  · obtain ⟨⟨xs, ys, htags⟩, he, hbytes, hleft', hright'⟩ :=
      h.absorbRight hr htr hdet rfl hc.1 hc.2 hleft rfl
    have hloop := absorbRightLoop_once hc rfl rfl hright'
    generalize meldTag t (s.get t .splitRight) (removeTag (s.get t .splitRight) s) = s'
      at he hbytes hleft' hright' hloop
    obtain ⟨tags', free', h', hmem, hdet', hkeep, hspares⟩ :=
      h.melds hr htags (Or.inr ⟨rfl, rfl⟩) hc.2 hdet he
    exact ⟨s', tags', free', hloop,
      ⟨h', hmem, hdet', hkeep, hspares, hbytes, he.completePages⟩, hleft', hright'⟩
  · refine ⟨s, tags, free, absorbRightLoop_stop hc, Melted.refl h htr hdet, hleft, ?_⟩
    exact h.live_of_not (fun h0 => ⟨r, hr, (h.runs.splitRight_mem hr htr h0).1⟩) hc

/-! ### The end of `free` -/

/-- No other tag of the run is live. -/
def OnlyLive (s : Liballoc) (held : List PageRun) (tags : UInt32 → List UInt32) (r : PageRun)
    (t : UInt32) : Prop :=
  ∀ u, LiveTag s held tags t u → ¬ r.Holds u

/-- It depends on the indices only. -/
theorem OnlyLive.congr (hindex : ∀ u, TagIn held tags u → s'.index u = s.index u) :
    OnlyLive s' held tags r t ↔ OnlyLive s held tags r t := by
  refine forall_congr' fun u => imp_congr_left (and_congr_right fun hu => and_congr_left' ?_)
  rw [hindex u hu]

/-- The list for a whole run's tag. -/
def PageRun.listIndex (r : PageRun) : ℤ := CometOS.listIndex (4096 * r.pages.toNat - 32)

/-- A tag lies in the run whose list has it. -/
theorem RunsOk.holds_iff (h : RunsOk s held tags) (hr : r ∈ held) (hu : TagIn held tags u) :
    r.Holds u ↔ u ∈ tags r.base := by
  constructor
  · rintro ⟨hlo, hhi⟩
    obtain ⟨r', hr', hur⟩ := hu
    have hb := h.bounds hr' hur
    have hheader := h.header u ⟨r', hr', hur⟩
    rcases h.eq_or_apart hr hr' with rfl | hap
    · exact hur
    · unfold PageRun.Apart at hap
      omega
  · intro hur
    have hb := h.bounds hr hur
    have hheader := h.header u hu
    exact ⟨hb.1, by omega⟩

/-- A tag whose neighbours are live has its run to itself exactly if it is the only live one. -/
theorem Releasable.whole_iff (h : Releasable s held tags T free) (hr : r ∈ held)
    (htr : t ∈ tags r.base)
    (hleft : s.get t .splitLeft ≠ 0 → s.index (s.get t .splitLeft) = -1)
    (hright : s.get t .splitRight ≠ 0 → s.index (s.get t .splitRight) = -1) :
    s.get t .splitLeft = 0 ∧ s.get t .splitRight = 0 ↔ OnlyLive s held tags r t := by
  constructor
  · rintro ⟨hl, hr0⟩ u ⟨hu, _, hut⟩ hin
    have hur := (h.runs.holds_iff hr hu).1 hin
    rw [(h.runs.whole hr htr hl hr0).1, List.mem_singleton] at hur
    exact hut hur
  · intro honly
    have hno : ∀ w, w ∈ tags r.base → s.index w = -1 → w ≠ t → False := fun w hw hidx hne =>
      honly w ⟨⟨r, hr, hw⟩, hidx, hne⟩ ((h.runs.holds_iff hr ⟨r, hr, hw⟩).2 hw)
    constructor
    · by_contra h0
      obtain ⟨hmem, hback⟩ := h.runs.splitLeft_mem hr htr h0
      refine hno _ hmem (hleft h0) fun he => ?_
      rw [he] at hback
      exact h.runs.splitRight_ne hr htr hback
    · by_contra h0
      exact hno _ (h.runs.splitRight_mem hr htr h0).1 (hright h0) (h.runs.splitRight_ne hr htr)

/-- A run of whole pages is given back with the pages it has. -/
theorem pagesOf_eq {n p : UInt32} (hp : 0 < p.toNat) (hn : n.toNat = 4096 * p.toNat) :
    pagesOf n = p := by
  have h4096 : (4096 : UInt32).toNat = 4096 := rfl
  have hone : (1 : UInt32).toNat = 1 := rfl
  have hmod : ¬ n % 4096 ≠ 0 := by
    rw [not_not]
    apply eq_of_toNat
    rw [UInt32.toNat_mod, hn, h4096, Nat.mul_mod_right]
    rfl
  have hdiv : n / 4096 = p := by
    apply eq_of_toNat
    rw [UInt32.toNat_div, hn, h4096, Nat.mul_div_cancel_left _ (by decide)]
  simp only [pagesOf, if_neg hmod, hdiv, UInt32.lt_iff_toNat_lt, hone]
  rw [if_neg (by omega)]

/-- The tag in hand goes to list `i`, once the counters have been set: its links and its index are new,
and one link of the tag that was first. -/
theorem FreeLists.insertTag (h : FreeLists s T free) (hT : boundaryTag.Separated T) (ht : T t)
    (hdet : Detached s t) {i : ℤ} (hi : 0 ≤ i) (hi' : i < 32) {c : ℤ → ℤ}
    (hs' : s' = CometOS.insertTag t i { s with completePages := c }) :
    Inserts T s s' t i ∧ KeepsBytes T s s' ∧
      ∀ u, T u → ∀ f, f ≠ .index ∧ f ≠ .next ∧ f ≠ .prev → s'.get u f = s.get u f := by
  obtain ⟨s₂, hs₂⟩ : ∃ a : Liballoc, a = { s with completePages := c } := ⟨_, rfl⟩
  have hget : ∀ u f, s₂.get u f = s.get u f := by
    intro u f
    rw [hs₂]
    rfl
  have hidx : ∀ u, s₂.index u = s.index u := by
    intro u
    rw [hs₂]
    rfl
  have hpages : s₂.freePages = s.freePages := by rw [hs₂]
  have hsame : KeepsBytes T s s₂ := KeepsBytes.of_mem (by rw [hs₂])
  rw [← hs₂] at hs'
  have hindex : insertIndex t i s₂ = i := by rw [insertIndex, if_neg (by omega)]
  have hmem : s.freePages i ≠ 0 → T (s.freePages i) ∧ s.index (s.freePages i) = i :=
    fun h0 => (h.mem i hi _).1 (h.head_mem hi h0)
  have hhead : s₂.freePages i ≠ 0 → T (s₂.freePages i) := by
    rw [hpages]
    exact fun h0 => (hmem h0).1
  have hne : s₂.freePages i ≠ t := by
    rw [hpages]
    intro he
    have hfirst := (hmem (by rw [he]; exact hT.ne_zero ht)).2
    rw [he, hdet.1] at hfirst
    omega
  have hnull : s₂.get t .next = 0 := by rw [hget, hdet.2.1]
  have hins := insertTag_inserts hT hindex hi hi' ht hhead hne hnull
  have hbytes := hsame.trans (insertTag_bytes hindex ht hhead)
  rw [hs']
  refine ⟨?_, hbytes, fun u hu f hf => ?_⟩
  · constructor
    · intro u hu
      rw [hins.index u hu, hidx]
    · intro u hu
      rw [hins.next u hu, hpages, hget]
    · intro u hu
      rw [hins.prev u hu, hpages, hget]
    · rw [hins.freePages, hpages]
  · rw [insertTag_get_of_ne hT hindex hi hi' ht hhead hne hnull hu hf, hget]

/-- **The end of `free`**: the run is given back exactly if its only live tag was the one in hand and
five like it are standing by. -/
theorem Releasable.freeFinish (h : Releasable s held tags T free) (hr : r ∈ held)
    (htr : t ∈ tags r.base) (hdet : Detached s t)
    (hleft : s.get t .splitLeft ≠ 0 → s.index (s.get t .splitLeft) = -1)
    (hright : s.get t .splitRight ≠ 0 → s.index (s.get t .splitRight) = -1) :
    ∃ s' given, CometOS.freeFinish t s = (s', given) ∧ KeepsBytes T s s' ∧
      (∀ u, T u → ∀ f, SizeField f → s'.get u f = s.get u f) ∧ (given = none ∨ given = some r) ∧
      (given = some r ↔ OnlyLive s held tags r t ∧ s.completePages r.listIndex = maxComplete) := by
  have ht : TagIn held tags t := ⟨r, hr, htr⟩
  have hheader := h.runs.header t ht
  have hsub : (s.get t .realSize - 32).toNat = (s.get t .realSize).toNat - 32 :=
    toNat_sub_of_le (b := 32) hheader
  obtain ⟨hi8, hi32⟩ := listIndex_bounds (s.get t .realSize - 32).toNat_lt
  rw [hsub] at hi8 hi32
  have hinsert : ∀ c, KeepsBytes T s (CometOS.insertTag t
        (CometOS.listIndex ((s.get t .realSize).toNat - 32)) { s with completePages := c }) ∧
      ∀ u, T u → ∀ f, SizeField f → (CometOS.insertTag t
        (CometOS.listIndex ((s.get t .realSize).toNat - 32)) { s with completePages := c }).get u f =
          s.get u f := by
    intro c
    obtain ⟨_, hbytes, hsame⟩ :=
      h.lists.insertTag h.separated (h.within t ht) hdet (by omega) hi32 (Eq.refl (CometOS.insertTag t
        (CometOS.listIndex ((s.get t .realSize).toNat - 32)) { s with completePages := c }))
    refine ⟨hbytes, fun u hu f hf => hsame u hu f ?_⟩
    rcases hf with rfl | rfl | rfl <;> decide
  rw [← h.whole_iff hr htr hleft hright]
  simp only [CometOS.freeFinish, atLeastMinexp_getexp, hsub]
  by_cases hw : s.get t .splitLeft = 0 ∧ s.get t .splitRight = 0
  · rw [if_pos hw]
    obtain ⟨_, hbase, hsize⟩ := h.runs.whole hr htr hw.1 hw.2
    have hlist : CometOS.listIndex ((s.get t .realSize).toNat - 32) = r.listIndex := by
      rw [hsize]
      rfl
    rw [hlist] at hinsert ⊢
    by_cases hfull : s.completePages r.listIndex = maxComplete
    · rw [if_pos hfull]
      have hrun : (⟨t, pagesOf (s.get t .realSize)⟩ : PageRun) = r := by
        rw [pagesOf_eq (h.runs.bound r hr).2.1 hsize, hbase]
      rw [hrun]
      exact ⟨s, some r, rfl, KeepsBytes.refl, fun _ _ _ _ => rfl, Or.inr rfl,
        iff_of_true rfl ⟨hw, hfull⟩⟩
    · rw [if_neg hfull]
      exact ⟨_, none, rfl, (hinsert _).1, (hinsert _).2, Or.inl rfl,
        iff_of_false (fun hc => by cases hc) fun hc => hfull hc.2⟩
  · rw [if_neg hw]
    exact ⟨_, none, rfl, (hinsert s.completePages).1, (hinsert s.completePages).2, Or.inl rfl,
      iff_of_false (fun hc => by cases hc) fun hc => hw hc.1⟩

/-- **`free`**, of a live tag of run `r`: it returns, writes headers only, spares the other live tags,
and gives back this run or none. -/
theorem Releasable.free_spec (h : Releasable s held tags T free) (hr : r ∈ held) (htr : t ∈ tags r.base)
    (hdet : Detached s t) (hmagic : s.get t .magic = liballocMagic) {ptr : UInt32}
    (hptr : ptr = t + 32) (hne : ptr ≠ 0) :
    ∃ s' given, CometOS.free ptr s = some (s', given) ∧ KeepsBytes T s s' ∧
      (∀ u, T u → s.index u = -1 → u ≠ t → ∀ f, SizeField f → s'.get u f = s.get u f) ∧
      (given = none ∨ given = some r) ∧
      (given = some r ↔ OnlyLive s held tags r t ∧ s.completePages r.listIndex = maxComplete) := by
  have hsub : ptr - 32 = t := by rw [hptr, UInt32.add_sub_cancel]
  obtain ⟨t₁, s₁, tags₁, free₁, hmelt, hm₁, hleft₁⟩ := h.meltLeftLoop hr htr hdet
  obtain ⟨s₂, tags₂, free₂, habsorb, hm₂, hleft₂, hright₂⟩ :=
    hm₁.ready.absorbRightLoop hr hm₁.mem hm₁.detached hleft₁
  have hm := hm₁.trans hm₂
  obtain ⟨s', given, hfinish, hbytes, hsame, hcase, hiff⟩ :=
    hm.ready.freeFinish hr hm.mem hm.detached hleft₂ hright₂
  refine ⟨s', given, ?_, hm.bytes.trans hbytes, fun u hu hidx hut f hf => ?_, hcase, ?_⟩
  · rw [CometOS.free, if_neg hne]
    simp only [hsub]
    rw [if_neg (not_not.2 hmagic), hmelt, Option.bind_some, habsorb, Option.map_some, hfinish]
  · rw [hsame u hu f hf]
    exact (hm.spares u hu hidx hut).2.2 f hf
  · rw [hiff, hm.completePages]
    refine and_congr_left' ⟨fun honly u hu => ?_, fun honly u hu => ?_⟩
    · exact honly u ((hm.live.iff u).2 hu)
    · exact honly u ((hm.live.iff u).1 hu)

end Release

end CometOS
