import CometOS.LiballocLists
import CometOS.LiballocRuns

/-!
# The heap's invariant

`HeapShape` is what `malloc` and `free` restore: the runs are tiled by their tags, the free tags are
in the right lists, no two neighbours are free, and the counters count the unsplit runs.  A tag in
hand is `Detached`: it has index -1 and null links, as a live one has.  Each step of `malloc` and
`free` takes one shape to another, with a tag in hand before or after it.
-/

namespace CometOS

open ByteMemory LinkedList Loop Record Run Tiling Word32

/-- The tag is in no list. -/
def Detached (s : Liballoc) (t : UInt32) : Prop :=
  s.index t = -1 ∧ s.get t .next = 0 ∧ s.get t .prev = 0

/-- The tag has its run to itself. -/
def wholeRun (s : Liballoc) (t : UInt32) : Bool := s.get t .splitLeft = 0 ∧ s.get t .splitRight = 0

structure HeapShape (s : Liballoc) (held : List PageRun) (tags : UInt32 → List UInt32)
    (free : ℤ → List UInt32) : Prop where
  runs : RunsOk s held tags
  lists : FreeLists s (TagIn held tags) free
  magic : ∀ t, TagIn held tags t → s.get t .magic = liballocMagic
  kind : ∀ t, TagIn held tags t →
    Detached s t ∨ s.index t = listIndex ((s.get t .realSize).toNat - 32)
  alone : ∀ t, TagIn held tags t → s.get t .splitRight ≠ 0 →
    s.index t = -1 ∨ s.index (s.get t .splitRight) = -1
  count : ∀ i, 0 ≤ i → s.completePages i = (free i).countP (wholeRun s)
  count_le : ∀ i, 0 ≤ i → s.completePages i ≤ maxComplete

section Shape

variable {s s₁ s' : Liballoc} {held : List PageRun} {tags : UInt32 → List UInt32}
  {free : ℤ → List UInt32} {r : PageRun} {t u x : UInt32}

theorem wholeRun_iff : wholeRun s t = true ↔ s.get t .splitLeft = 0 ∧ s.get t .splitRight = 0 := by
  rw [wholeRun, decide_eq_true_iff]

theorem wholeRun_congr (hl : s'.get t .splitLeft = s.get t .splitLeft)
    (hr : s'.get t .splitRight = s.get t .splitRight) : wholeRun s' t = wholeRun s t := by
  rw [wholeRun, wholeRun, hl, hr]

/-- A tag is detached exactly when its index is negative; otherwise the index is that of a list. -/
theorem HeapShape.index_cases (h : HeapShape s held tags free) (ht : TagIn held tags t) :
    Detached s t ∨ (8 ≤ s.index t ∧ s.index t < 32) := by
  rcases h.kind t ht with hd | hi
  · exact Or.inl hd
  · have hle := (h.runs.realSize_le ht).1
    have hb := listIndex_bounds (n := (s.get t .realSize).toNat - 32) (by omega)
    exact Or.inr (by omega)

theorem HeapShape.detached (h : HeapShape s held tags free) (ht : TagIn held tags t)
    (hi : s.index t < 0) : Detached s t := by
  rcases h.index_cases ht with hd | hb
  · exact hd
  · omega

/-! ### Taking a tag out of its list -/

/-- The tag taken out is detached, and those that were detached still are. -/
theorem Unlinks.detached {T : UInt32 → Prop} (hF : FreeLists s T free)
    (hT : boundaryTag.Separated T) (hx : T x) (hi : 0 ≤ s.index x) (hun : Unlinks T s s' x)
    (hu : T u) (hd : u = x ∨ Detached s u) : Detached s' u := by
  by_cases hux : u = x
  · exact ⟨by rw [hun.index u hu, if_pos hux], by rw [hun.next u hu, if_pos hux],
      by rw [hun.prev u hu, if_pos hux]⟩
  · obtain ⟨hidx, hnext, hprev⟩ := hd.resolve_left hux
    obtain ⟨hp, hn⟩ := hF.neighbours_mem hi ((hF.mem _ hi x).2 ⟨hx, rfl⟩)
    -- a detached tag is nobody's neighbour in a list
    have hnot : u ∉ free (s.index x) := by
      intro hin
      have := ((hF.mem _ hi u).1 hin).2
      omega
    have hup : u ≠ s.get x .prev := by
      intro he
      rw [← he] at hp
      exact hp.elim (hT.ne_zero hu) hnot
    have hun' : u ≠ s.get x .next := by
      intro he
      rw [← he] at hn
      exact hn.elim (hT.ne_zero hu) hnot
    exact ⟨by rw [hun.index u hu, if_neg hux, hidx],
      by rw [hun.next u hu, if_neg hux, if_neg hup, hnext],
      by rw [hun.prev u hu, if_neg hux, if_neg hun', hprev]⟩

/-- A detached tag stays at index -1. -/
theorem Unlinks.index_of_neg {T : UInt32 → Prop} (hun : Unlinks T s s' x) (hu : T u)
    (hidx : s.index u = -1) : s'.index u = -1 := by
  rw [hun.index u hu, hidx, ite_self]

/-- The number of whole runs in a list that loses a tag. -/
theorem countP_erase {p : UInt32 → Bool} {xs : List UInt32} (hx : x ∈ xs) :
    xs.countP p = (xs.erase x).countP p + if p x then 1 else 0 := by
  rw [(List.perm_cons_erase hx).countP_eq, List.countP_cons]

/-- Whether a listed tag has its run to itself does not depend on the links of the lists. -/
theorem HeapShape.wholeRun_same (h : HeapShape s held tags free)
    (hsame : ∀ u, TagIn held tags u → ∀ f, f ≠ .index ∧ f ≠ .next ∧ f ≠ .prev →
      s'.get u f = s.get u f) {i : ℤ} (hi : 0 ≤ i) (hu : u ∈ free i) : wholeRun s' u = wholeRun s u := by
  have huT := ((h.lists.mem i hi u).1 hu).1
  exact wholeRun_congr (hsame u huT _ (by decide)) (hsame u huT _ (by decide))

/-- Nor does the number of whole runs in a list. -/
theorem HeapShape.countP_same (h : HeapShape s held tags free)
    (hlinks : ∀ u, TagIn held tags u → s'.get u .splitLeft = s.get u .splitLeft ∧
      s'.get u .splitRight = s.get u .splitRight) {i : ℤ} (hi : 0 ≤ i) :
    (free i).countP (wholeRun s') = (free i).countP (wholeRun s) := by
  refine List.countP_congr fun u hu => ?_
  obtain ⟨hl, hr⟩ := hlinks u ((h.lists.mem i hi u).1 hu).1
  rw [wholeRun_congr hl hr]

theorem HeapShape.count_removed (h : HeapShape s held tags free) (hx : TagIn held tags x)
    (hi : 0 ≤ s.index x)
    (hsame : ∀ u, TagIn held tags u → ∀ f, f ≠ .index ∧ f ≠ .next ∧ f ≠ .prev →
      s'.get u f = s.get u f)
    (hcount : s'.completePages = if wholeRun s x then
      Function.update s.completePages (s.index x) (s.completePages (s.index x) - 1)
      else s.completePages) {i : ℤ} (hi' : 0 ≤ i) :
    s'.completePages i =
      (Function.update free (s.index x) ((free (s.index x)).erase x) i).countP (wholeRun s') := by
  rw [hcount]
  by_cases hix : i = s.index x
  · subst hix
    have hc := h.count _ hi
    rw [countP_erase ((h.lists.mem _ hi x).2 ⟨hx, rfl⟩)] at hc
    have hcongr : ((free (s.index x)).erase x).countP (wholeRun s') =
        ((free (s.index x)).erase x).countP (wholeRun s) :=
      List.countP_congr fun u hu => by rw [h.wholeRun_same hsame hi (List.mem_of_mem_erase hu)]
    rw [Function.update_self, hcongr]
    by_cases hw : wholeRun s x = true
    · rw [if_pos hw] at hc ⊢
      rw [Function.update_self, hc]
      omega
    · rw [if_neg hw] at hc ⊢
      rw [hc]
      omega
  · have hcongr : (free i).countP (wholeRun s') = (free i).countP (wholeRun s) :=
      h.countP_same (fun u hu => ⟨hsame u hu _ (by decide), hsame u hu _ (by decide)⟩) hi'
    rw [Function.update_of_ne hix, hcongr, ← h.count i hi']
    split
    · rw [Function.update_of_ne hix]
    · rfl

/-- **Taking out** a free tag, as `malloc` does. -/
theorem HeapShape.remove (h : HeapShape s held tags free) (hx : TagIn held tags x)
    (hi : 0 ≤ s.index x) (hun : Unlinks (TagIn held tags) s s' x)
    (hsame : ∀ u, TagIn held tags u → ∀ f, f ≠ .index ∧ f ≠ .next ∧ f ≠ .prev →
      s'.get u f = s.get u f)
    (hcount : s'.completePages = if wholeRun s x then
      Function.update s.completePages (s.index x) (s.completePages (s.index x) - 1)
      else s.completePages) :
    ∃ free', HeapShape s' held tags free' ∧ Detached s' x := by
  have hT := h.runs.separated
  refine ⟨Function.update free (s.index x) ((free (s.index x)).erase x), ?_,
    hun.detached h.lists hT hx hi hx (Or.inl rfl)⟩
  constructor
  · exact h.runs.congr fun u hu =>
      ⟨hsame u hu _ (by decide), hsame u hu _ (by decide), hsame u hu _ (by decide)⟩
  · exact h.lists.remove hT hx hi hun
  · intro u hu
    rw [hsame u hu _ (by decide), h.magic u hu]
  · intro u hu
    rw [hsame u hu _ (by decide)]
    by_cases hux : u = x
    · exact Or.inl (hun.detached h.lists hT hx hi hu (Or.inl hux))
    · rcases h.kind u hu with hd | hidx
      · exact Or.inl (hun.detached h.lists hT hx hi hu (Or.inr hd))
      · rw [hun.index u hu, if_neg hux]
        exact Or.inr hidx
  · intro u hu h0
    rw [hsame u hu _ (by decide)] at h0 ⊢
    obtain ⟨r, hr, hur⟩ := hu
    have hright : TagIn held tags (s.get u .splitRight) := ⟨r, hr, (h.runs.splitRight_mem hr hur h0).1⟩
    exact (h.alone u ⟨r, hr, hur⟩ h0).imp (hun.index_of_neg ⟨r, hr, hur⟩) (hun.index_of_neg hright)
  · exact fun i hi' => h.count_removed hx hi hsame hcount hi'
  · intro i hi'
    have hle := h.count_le i hi'
    rw [hcount]
    split
    · by_cases hix : i = s.index x
      · subst hix
        rw [Function.update_self]
        omega
      · rw [Function.update_of_ne hix]
        exact hle
    · exact hle

/-! ### Putting a tag into its list -/

/-- Tags that were detached still are, the inserted one apart. -/
theorem Inserts.detached {T T' : UInt32 → Prop} (hF : FreeLists s T free)
    (hT : boundaryTag.Separated T') {i : ℤ} (hi : 0 ≤ i) (hins : Inserts T' s s' t i) (hu : T' u)
    (hut : u ≠ t) (hd : Detached s u) : Detached s' u := by
  obtain ⟨hidx, hnext, hprev⟩ := hd
  have hhead : u ≠ s.freePages i := by
    intro he
    have h0 : s.freePages i ≠ 0 := by
      rw [← he]
      exact hT.ne_zero hu
    have := ((hF.mem i hi _).1 (hF.head_mem hi h0)).2
    rw [← he] at this
    omega
  exact ⟨by rw [hins.index u hu, if_neg hut, hidx], by rw [hins.next u hu, if_neg hut, hnext],
    by rw [hins.prev u hu, if_neg hhead, hprev]⟩

theorem HeapShape.count_inserted (h : HeapShape s held tags free) (ht : TagIn held tags t) {i : ℤ}
    (hsame : ∀ u, TagIn held tags u → ∀ f, f ≠ .index ∧ f ≠ .next ∧ f ≠ .prev →
      s'.get u f = s.get u f)
    (hcount : s'.completePages = if wholeRun s t then
      Function.update s.completePages i (s.completePages i + 1) else s.completePages)
    {j : ℤ} (hj : 0 ≤ j) :
    s'.completePages j = (Function.update free i (t :: free i) j).countP (wholeRun s') := by
  have hcongr : (free j).countP (wholeRun s') = (free j).countP (wholeRun s) :=
    h.countP_same (fun u hu => ⟨hsame u hu _ (by decide), hsame u hu _ (by decide)⟩) hj
  have hwhole : wholeRun s' t = wholeRun s t :=
    wholeRun_congr (hsame t ht _ (by decide)) (hsame t ht _ (by decide))
  rw [hcount]
  by_cases hji : j = i
  · subst hji
    rw [Function.update_self, List.countP_cons, hcongr, hwhole]
    have hc := h.count j hj
    by_cases hw : wholeRun s t = true
    · rw [if_pos hw, if_pos hw, Function.update_self, hc]
      omega
    · rw [if_neg hw, if_neg hw, hc]
      omega
  · rw [Function.update_of_ne hji, hcongr, ← h.count j hj]
    split
    · rw [Function.update_of_ne hji]
    · rfl

/-- The neighbours of the tag in hand are live, so that no two neighbours are free with it. -/
theorem HeapShape.alone_inserted (h : HeapShape s held tags free)
    (hright : s.get t .splitRight ≠ 0 → s.index (s.get t .splitRight) = -1)
    (hleft : s.get t .splitLeft ≠ 0 → s.index (s.get t .splitLeft) = -1) {i : ℤ}
    (hins : Inserts (TagIn held tags) s s' t i) (hu : TagIn held tags u)
    (h0 : s.get u .splitRight ≠ 0) : s'.index u = -1 ∨ s'.index (s.get u .splitRight) = -1 := by
  obtain ⟨r, hr, hur⟩ := hu
  obtain ⟨hmem, hback⟩ := h.runs.splitRight_mem hr hur h0
  rw [hins.index u ⟨r, hr, hur⟩, hins.index _ ⟨r, hr, hmem⟩]
  by_cases hut : u = t
  · -- the tag's right neighbour is live
    right
    rw [hut] at h0 ⊢
    rw [if_neg (h.runs.splitRight_ne hr (hut ▸ hur))]
    exact hright h0
  · rw [if_neg hut]
    by_cases hrt : s.get u .splitRight = t
    · -- the tag is the right neighbour
      left
      rw [hrt] at hback
      rw [← hback]
      apply hleft
      rw [hback]
      exact h.runs.separated.ne_zero ⟨r, hr, hur⟩
    · rw [if_neg hrt]
      exact h.alone u ⟨r, hr, hur⟩ h0

/-- **Putting** the tag in hand into its list, once its neighbours are live. -/
theorem HeapShape.insert (h : HeapShape s held tags free) (ht : TagIn held tags t)
    (hdet : Detached s t)
    (hright : s.get t .splitRight ≠ 0 → s.index (s.get t .splitRight) = -1)
    (hleft : s.get t .splitLeft ≠ 0 → s.index (s.get t .splitLeft) = -1) {i : ℤ}
    (hi : i = listIndex ((s.get t .realSize).toNat - 32))
    (hins : Inserts (TagIn held tags) s s' t i)
    (hsame : ∀ u, TagIn held tags u → ∀ f, f ≠ .index ∧ f ≠ .next ∧ f ≠ .prev →
      s'.get u f = s.get u f)
    (hroom : wholeRun s t = true → s.completePages i ≠ maxComplete)
    (hcount : s'.completePages = if wholeRun s t then
      Function.update s.completePages i (s.completePages i + 1) else s.completePages) :
    ∃ free', HeapShape s' held tags free' := by
  have hT := h.runs.separated
  have hsize := (h.runs.realSize_le ht).1
  have hi0 : 0 ≤ i := by
    have := (listIndex_bounds (n := (s.get t .realSize).toNat - 32) (by omega)).1
    omega
  have hlists : FreeLists s' (TagIn held tags) (Function.update free i (t :: free i)) := by
    refine h.lists.insert hT (fun u => ?_) hi0 (fun hc => ?_) hdet.2.2 hins
    · constructor
      · exact Or.inl
      · rintro (hu | rfl)
        · exact hu
        · exact ht
    · have := hdet.1
      omega
  refine ⟨Function.update free i (t :: free i), ?_⟩
  constructor
  · exact h.runs.congr fun u hu =>
      ⟨hsame u hu _ (by decide), hsame u hu _ (by decide), hsame u hu _ (by decide)⟩
  · exact hlists
  · intro u hu
    rw [hsame u hu _ (by decide), h.magic u hu]
  · intro u hu
    rw [hsame u hu _ (by decide)]
    by_cases hut : u = t
    · right
      rw [hins.index u hu, if_pos hut, hut, hi]
    · rcases h.kind u hu with hd | hidx
      · exact Or.inl (hins.detached h.lists hT hi0 hu hut hd)
      · rw [hins.index u hu, if_neg hut]
        exact Or.inr hidx
  · intro u hu h0
    rw [hsame u hu _ (by decide)] at h0 ⊢
    exact h.alone_inserted hright hleft hins hu h0
  · exact fun j hj => h.count_inserted ht hsame hcount hj
  · intro j hj
    have hle := h.count_le j hj
    rw [hcount]
    split
    · rename_i hw
      by_cases hji : j = i
      · subst hji
        rw [Function.update_self]
        have := hroom hw
        omega
      · rw [Function.update_of_ne hji]
        exact hle
    · exact hle

/-! ### Runs that come and go -/

/-- A step that changes nothing but sizes asked for. -/
theorem HeapShape.congr (h : HeapShape s held tags free)
    (hsame : ∀ u, TagIn held tags u → ∀ f, f ≠ .size → s'.get u f = s.get u f)
    (hpages : s'.freePages = s.freePages) (hcount : s'.completePages = s.completePages) :
    HeapShape s' held tags free := by
  have hindex : ∀ u, TagIn held tags u → s'.index u = s.index u := by
    intro u hu
    rw [Liballoc.index, hsame u hu _ (by decide)]
    rfl
  constructor
  · exact h.runs.congr fun u hu =>
      ⟨hsame u hu _ (by decide), hsame u hu _ (by decide), hsame u hu _ (by decide)⟩
  · exact h.lists.congr hpages
      (fun u hu _ => ⟨hu, hindex u hu, hsame u hu _ (by decide), hsame u hu _ (by decide)⟩)
      fun u hu _ => ⟨hu, hindex u hu⟩
  · intro u hu
    rw [hsame u hu _ (by decide), h.magic u hu]
  · intro u hu
    rw [Detached, hindex u hu, hsame u hu _ (by decide), hsame u hu _ (by decide),
      hsame u hu _ (by decide)]
    exact h.kind u hu
  · intro u hu h0
    rw [hsame u hu _ (by decide)] at h0 ⊢
    obtain ⟨r, hr, hur⟩ := hu
    rw [hindex u ⟨r, hr, hur⟩, hindex _ ⟨r, hr, (h.runs.splitRight_mem hr hur h0).1⟩]
    exact h.alone u ⟨r, hr, hur⟩ h0
  · intro i hi
    rw [hcount, h.count i hi,
      h.countP_same (fun u hu => ⟨hsame u hu _ (by decide), hsame u hu _ (by decide)⟩) hi]
  · intro i hi
    rw [hcount]
    exact h.count_le i hi

/-- **A new run** comes in with its tag in hand. -/
theorem HeapShape.add (h : HeapShape s held tags free) (hbase : r.base ≠ 0)
    (hpages : 0 < r.pages.toNat) (hmax : r.pages.toNat ≤ 2 ^ 18 + 1) (hfresh : FreshRun held r)
    (hsize : (s'.get r.base .realSize).toNat = 4096 * r.pages.toNat)
    (hlinks : s'.get r.base .splitLeft = 0 ∧ s'.get r.base .splitRight = 0)
    (hmagic : s'.get r.base .magic = liballocMagic) (hdet : Detached s' r.base)
    (hindex : ∀ u, TagIn held tags u → s'.index u = s.index u)
    (hsame : ∀ u, TagIn held tags u → ∀ f, f ≠ .index → s'.get u f = s.get u f)
    (hfree : s'.freePages = s.freePages) (hcount : s'.completePages = s.completePages) :
    HeapShape s' (r :: held) (Function.update tags r.base [r.base]) free := by
  have hTag' : TagIn (r :: held) (Function.update tags r.base [r.base]) =
      fun u => TagIn held tags u ∨ u = r.base :=
    funext fun u => propext (tagIn_add h.runs hfresh hpages)
  constructor
  · exact h.runs.add hbase hpages hmax hfresh hsize hlinks.1 hlinks.2
      fun u hu => ⟨hsame u hu _ (by decide), hsame u hu _ (by decide), hsame u hu _ (by decide)⟩
  · rw [hTag']
    refine h.lists.congr hfree
      (fun u hu _ => ⟨Or.inl hu, hindex u hu, hsame u hu _ (by decide), hsame u hu _ (by decide)⟩) ?_
    rintro u (hu | rfl) hidx
    · exact ⟨hu, hindex u hu⟩
    · have := hdet.1
      omega
  · rw [hTag']
    rintro u (hu | rfl)
    · rw [hsame u hu _ (by decide), h.magic u hu]
    · exact hmagic
  · rw [hTag']
    rintro u (hu | rfl)
    · rw [Detached, hindex u hu, hsame u hu _ (by decide), hsame u hu _ (by decide),
        hsame u hu _ (by decide)]
      exact h.kind u hu
    · exact Or.inl hdet
  · rw [hTag']
    rintro u (hu | rfl) h0
    · rw [hsame u hu _ (by decide)] at h0 ⊢
      obtain ⟨r', hr', hur⟩ := hu
      rw [hindex u ⟨r', hr', hur⟩, hindex _ ⟨r', hr', (h.runs.splitRight_mem hr' hur h0).1⟩]
      exact h.alone u ⟨r', hr', hur⟩ h0
    · exact absurd hlinks.2 h0
  · intro i hi
    rw [hcount, h.count i hi,
      h.countP_same (fun u hu => ⟨hsame u hu _ (by decide), hsame u hu _ (by decide)⟩) hi]
  · intro i hi
    rw [hcount]
    exact h.count_le i hi

/-- **A run goes** whose only tag is in hand. -/
theorem HeapShape.drop (h : HeapShape s held tags free) (hr : r ∈ held)
    (hone : tags r.base = [t]) (hdet : Detached s t) :
    HeapShape s (held.filter fun run => some run ≠ some r) tags free := by
  have hTag' : TagIn (held.filter fun run => some run ≠ some r) tags =
      fun u => TagIn held tags u ∧ u ∉ tags r.base :=
    funext fun u => propext (tagIn_drop h.runs hr)
  have hsub : ∀ u, TagIn (held.filter fun run => some run ≠ some r) tags u → TagIn held tags u := by
    intro u hu
    rw [hTag'] at hu
    exact hu.1
  constructor
  · exact h.runs.drop r
  · rw [hTag']
    refine h.lists.congr rfl (fun u hu hidx => ⟨⟨hu, ?_⟩, rfl, rfl, rfl⟩) fun u hu _ => ⟨hu.1, rfl⟩
    rw [hone, List.mem_singleton]
    rintro rfl
    have := hdet.1
    omega
  · exact fun u hu => h.magic u (hsub u hu)
  · exact fun u hu => h.kind u (hsub u hu)
  · exact fun u hu => h.alone u (hsub u hu)
  · exact h.count
  · exact h.count_le

end Shape

end CometOS
