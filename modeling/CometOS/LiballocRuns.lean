import CometOS.LiballocTags
import CometOS.Lib.LinkedList
import CometOS.Lib.Tiling

/-!
# The runs and their tags

`RunsOk s held tags` says that `tags b` lists the tags of the run at `b`: linked by `split_left` and
`split_right`, and tiling the run by their real sizes.  What melting and splitting do to the lists
follows from what they do to three fields (`Melds`, `Splits`).
-/

namespace CometOS

open ByteMemory LinkedList Loop Record Run Tiling Word32

/-- `t` is a tag of one of the runs. -/
def TagIn (held : List PageRun) (tags : UInt32 → List UInt32) (t : UInt32) : Prop :=
  ∃ r ∈ held, t ∈ tags r.base

structure RunsOk (s : Liballoc) (held : List PageRun) (tags : UInt32 → List UInt32) : Prop where
  bound : ∀ r ∈ held, r.base ≠ 0 ∧ 0 < r.pages.toNat ∧ r.pages.toNat ≤ 2 ^ 18 + 1 ∧ r.stop ≤ 2 ^ 32
  apart : held.Pairwise PageRun.Apart
  tile : ∀ r ∈ held, Tiles UInt32.toNat (fun t => (s.get t .realSize).toNat) r.base.toNat
    (tags r.base) r.stop
  header : ∀ t, TagIn held tags t → 32 ≤ (s.get t .realSize).toNat
  linked : ∀ r ∈ held, Linked (fun t => s.get t .splitRight) (fun t => s.get t .splitLeft) 0
    (tags r.base) 0

/-- `d` becomes part of `l`, the tag on its left. -/
structure Melds (T : UInt32 → Prop) (s s' : Liballoc) (l d : UInt32) : Prop where
  realSize : ∀ u, T u → s'.get u .realSize =
    if u = l then s.get l .realSize + s.get d .realSize else s.get u .realSize
  splitRight : ∀ u, T u → s'.get u .splitRight =
    if u = l then s.get d .splitRight else s.get u .splitRight
  splitLeft : ∀ u, T u → s'.get u .splitLeft =
    if u = s.get d .splitRight then l else s.get u .splitLeft

/-- The new tag `n` takes `rem` bytes from the end of `t`. -/
structure Splits (T : UInt32 → Prop) (s s' : Liballoc) (t n rem : UInt32) : Prop where
  realSize : ∀ u, T u → s'.get u .realSize =
    if u = n then rem else if u = t then s.get t .realSize - rem else s.get u .realSize
  splitRight : ∀ u, T u → s'.get u .splitRight =
    if u = n then s.get t .splitRight else if u = t then n else s.get u .splitRight
  splitLeft : ∀ u, T u → s'.get u .splitLeft =
    if u = n then t else if u = s.get t .splitRight then n else s.get u .splitLeft

section Runs

variable {s s' : Liballoc} {held : List PageRun} {tags : UInt32 → List UInt32} {r r' : PageRun}
  {t u : UInt32}

instance : Std.Symm PageRun.Apart := ⟨fun _ _ => Or.symm⟩

theorem RunsOk.eq_or_apart (h : RunsOk s held tags) (hr : r ∈ held) (hr' : r' ∈ held) :
    r = r' ∨ r.Apart r' := by
  by_cases hne : r = r'
  · exact Or.inl hne
  · exact Or.inr (h.apart.forall hr hr' hne)

/-- Runs are told apart by where they start. -/
theorem RunsOk.base_inj (h : RunsOk s held tags) (hr : r ∈ held) (hr' : r' ∈ held)
    (hb : r.base = r'.base) : r = r' := by
  rcases h.eq_or_apart hr hr' with he | ha
  · exact he
  · have h1 := h.bound r hr
    have h2 := h.bound r' hr'
    unfold PageRun.Apart PageRun.stop at ha
    rw [hb] at ha
    omega

theorem RunsOk.bounds (h : RunsOk s held tags) (hr : r ∈ held) (ht : t ∈ tags r.base) :
    r.base.toNat ≤ t.toNat ∧ t.toNat + (s.get t .realSize).toNat ≤ r.stop := by
  have hb := (h.tile r hr).bounds ht
  exact ⟨hb.1, hb.2.2⟩

/-- A tag is in one run only. -/
theorem RunsOk.run_eq (h : RunsOk s held tags) (hr : r ∈ held) (hr' : r' ∈ held)
    (ht : t ∈ tags r.base) (ht' : t ∈ tags r'.base) : r = r' := by
  rcases h.eq_or_apart hr hr' with he | ha
  · exact he
  · have h1 := h.bounds hr ht
    have h2 := h.bounds hr' ht'
    have h3 := h.header t ⟨r, hr, ht⟩
    unfold PageRun.Apart at ha
    omega

theorem RunsOk.realSize_le (h : RunsOk s held tags) (ht : TagIn held tags t) :
    (s.get t .realSize).toNat ≤ 2 ^ 30 + 4096 ∧
      t.toNat + (s.get t .realSize).toNat ≤ 2 ^ 32 := by
  obtain ⟨r, hr, ht⟩ := ht
  have h1 := h.bounds hr ht
  have h2 := h.bound r hr
  have h3 : r.stop = r.base.toNat + 4096 * r.pages.toNat := rfl
  omega

/-- Different tags cover different bytes. -/
theorem RunsOk.disjoint (h : RunsOk s held tags) (ht : TagIn held tags t) (hu : TagIn held tags u)
    (hne : t ≠ u) :
    t.toNat + (s.get t .realSize).toNat ≤ u.toNat ∨
      u.toNat + (s.get u .realSize).toNat ≤ t.toNat := by
  obtain ⟨r, hr, ht⟩ := ht
  obtain ⟨r', hr', hu⟩ := hu
  rcases h.eq_or_apart hr hr' with rfl | ha
  · exact (h.tile r hr).disjoint ht hu hne
  · have h1 := h.bounds hr ht
    have h2 := h.bounds hr' hu
    unfold PageRun.Apart at ha
    omega

theorem RunsOk.ne_zero (h : RunsOk s held tags) (ht : TagIn held tags t) : t ≠ 0 := by
  obtain ⟨r, hr, ht⟩ := ht
  rintro rfl
  have h1 := (h.bounds hr ht).1
  have h2 := toNat_pos (h.bound r hr).1
  have h3 : (0 : UInt32).toNat = 0 := rfl
  omega

/-- The tags' own bytes do not overlap. -/
theorem RunsOk.separated (h : RunsOk s held tags) : boundaryTag.Separated (TagIn held tags) where
  zero ht := h.ne_zero ht rfl
  apart a b ha hb hne := by
    have h1 := h.header a ha
    have h2 := h.header b hb
    have h3 := h.realSize_le ha
    have h4 := h.realSize_le hb
    rw [show boundaryTag.size = 32 from rfl]
    rcases h.disjoint ha hb hne.symm with hab | hba
    · exact apart_of_le (by decide) (by omega) (by omega)
    · exact (apart_of_le (by decide) (by omega) (by omega)).symm

theorem RunsOk.zero_notMem (h : RunsOk s held tags) (hr : r ∈ held) : 0 ∉ tags r.base :=
  fun h0 => h.ne_zero ⟨r, hr, h0⟩ rfl

/-- The tag on the right is in the same run and knows its neighbour. -/
theorem RunsOk.splitRight_mem (h : RunsOk s held tags) (hr : r ∈ held) (ht : t ∈ tags r.base)
    (h0 : s.get t .splitRight ≠ 0) :
    s.get t .splitRight ∈ tags r.base ∧ s.get (s.get t .splitRight) .splitLeft = t :=
  ((h.linked r hr).next_mem ht).resolve_left h0

theorem RunsOk.splitLeft_mem (h : RunsOk s held tags) (hr : r ∈ held) (ht : t ∈ tags r.base)
    (h0 : s.get t .splitLeft ≠ 0) :
    s.get t .splitLeft ∈ tags r.base ∧ s.get (s.get t .splitLeft) .splitRight = t :=
  ((h.linked r hr).prev_mem ht).resolve_left h0

/-- Two neighbours, as they stand in the list. -/
theorem RunsOk.adjacent (h : RunsOk s held tags) (hr : r ∈ held) (ht : t ∈ tags r.base)
    (h0 : s.get t .splitRight ≠ 0) :
    ∃ xs ys, tags r.base = xs ++ t :: s.get t .splitRight :: ys := by
  obtain ⟨xs, ys, heq⟩ := List.append_of_mem ht
  have hlink := h.linked r hr
  rw [heq] at hlink
  have hnext : s.get t .splitRight = ys.headD 0 := hlink.next_eq
  cases ys with
  | nil => exact absurd hnext h0
  | cons y ys =>
    refine ⟨xs, ys, ?_⟩
    rw [heq, hnext]
    rfl

/-- Of a run's tags only the first behind `t` is right of it. -/
theorem RunsOk.ne_splitRight (h : RunsOk s held tags) (hr : r ∈ held) {xs ys : List UInt32}
    (htags : tags r.base = xs ++ t :: ys) (hu : u ∈ xs ++ t :: ys.tail) :
    u ≠ s.get t .splitRight := by
  have hlink := h.linked r hr
  have hnodup := (h.tile r hr).nodup
  rw [htags] at hlink hnodup
  have hright : s.get t .splitRight = ys.headD 0 := hlink.next_eq
  rw [hright]
  cases ys with
  | nil => exact h.ne_zero ⟨r, hr, by rw [htags]; exact hu⟩
  | cons y ys =>
    rintro rfl
    rw [List.append_cons] at hnodup hu
    obtain ⟨_, hys, hdisj⟩ := List.nodup_append.1 hnodup
    rcases List.mem_append.1 hu with hu | hu
    · exact hdisj _ hu _ List.mem_cons_self rfl
    · exact (List.nodup_cons.1 hys).1 hu

theorem RunsOk.splitRight_ne (h : RunsOk s held tags) (hr : r ∈ held) (ht : t ∈ tags r.base) :
    s.get t .splitRight ≠ t := by
  obtain ⟨xs, ys, heq⟩ := List.append_of_mem ht
  exact (h.ne_splitRight hr heq (by simp)).symm

/-- What is right of the right neighbour is another tag. -/
theorem RunsOk.splitRight_ne_left (h : RunsOk s held tags) (hr : r ∈ held) {l d : UInt32}
    {xs ys : List UInt32} (htags : tags r.base = xs ++ l :: d :: ys) :
    s.get d .splitRight ≠ l := by
  rw [List.append_cons] at htags
  exact (h.ne_splitRight hr htags (by simp)).symm

/-- A tag of another run is none of this one's, and right of none of them. -/
theorem RunsOk.ne_of_other (h : RunsOk s held tags) (hr : r ∈ held) (hr' : r' ∈ held) (hne : r' ≠ r)
    (hu : u ∈ tags r'.base) (ht : t ∈ tags r.base) : u ≠ t ∧ u ≠ s.get t .splitRight := by
  have hother : ∀ v ∈ tags r.base, u ≠ v := by
    rintro v hv rfl
    exact hne (h.run_eq hr' hr hu hv)
  refine ⟨hother t ht, fun he => ?_⟩
  have h0 : s.get t .splitRight ≠ 0 := by
    rw [← he]
    exact h.ne_zero ⟨r', hr', hu⟩
  exact hother _ (h.splitRight_mem hr ht h0).1 he

/-- A tag without neighbours is its run's only one. -/
theorem RunsOk.whole (h : RunsOk s held tags) (hr : r ∈ held) (ht : t ∈ tags r.base)
    (hl : s.get t .splitLeft = 0) (hright : s.get t .splitRight = 0) :
    tags r.base = [t] ∧ t = r.base ∧ (s.get t .realSize).toNat = 4096 * r.pages.toNat := by
  have hone := (h.linked r hr).eq_singleton ht hright hl (h.zero_notMem hr) (h.zero_notMem hr)
  have htile := h.tile r hr
  rw [hone, tiles_singleton] at htile
  have hstop : r.stop = r.base.toNat + 4096 * r.pages.toNat := rfl
  exact ⟨hone, eq_of_toNat htile.1, by omega⟩

/-! ### Steps that leave the tags where they are -/

theorem RunsOk.congr (h : RunsOk s held tags)
    (hsame : ∀ u, TagIn held tags u → s'.get u .realSize = s.get u .realSize ∧
      s'.get u .splitRight = s.get u .splitRight ∧ s'.get u .splitLeft = s.get u .splitLeft) :
    RunsOk s' held tags where
  bound := h.bound
  apart := h.apart
  tile r hr := (h.tile r hr).congr fun u hu => by rw [(hsame u ⟨r, hr, hu⟩).1]
  header u hu := by
    rw [(hsame u hu).1]
    exact h.header u hu
  linked r hr := (h.linked r hr).congr (fun u hu => (hsame u ⟨r, hr, hu⟩).2.1)
    fun u hu => (hsame u ⟨r, hr, hu⟩).2.2

/-! ### Changing one run's list -/

theorem tagIn_update (h : RunsOk s held tags) (hr : r ∈ held) {ts : List UInt32} :
    TagIn held (Function.update tags r.base ts) u ↔
      u ∈ ts ∨ ∃ r' ∈ held, r' ≠ r ∧ u ∈ tags r'.base := by
  constructor
  · rintro ⟨r', hr', hu⟩
    by_cases hb : r'.base = r.base
    · rw [hb, Function.update_self] at hu
      exact Or.inl hu
    · rw [Function.update_of_ne hb] at hu
      exact Or.inr ⟨r', hr', fun he => hb (by rw [he]), hu⟩
  · rintro (hu | ⟨r', hr', hne, hu⟩)
    · exact ⟨r, hr, by rwa [Function.update_self]⟩
    · refine ⟨r', hr', ?_⟩
      rwa [Function.update_of_ne fun hb => hne (h.base_inj hr' hr hb)]

/-- **One run changes.**  Its new list must be linked and tile it; the other runs' tags must keep
their sizes and links. -/
theorem RunsOk.update (h : RunsOk s held tags) (hr : r ∈ held) {ts : List UInt32}
    (htile : Tiles UInt32.toNat (fun t => (s'.get t .realSize).toNat) r.base.toNat ts r.stop)
    (hheader : ∀ u ∈ ts, 32 ≤ (s'.get u .realSize).toNat)
    (hlinked : Linked (fun t => s'.get t .splitRight) (fun t => s'.get t .splitLeft) 0 ts 0)
    (hsame : ∀ r' ∈ held, r' ≠ r → ∀ u ∈ tags r'.base,
      s'.get u .realSize = s.get u .realSize ∧ s'.get u .splitRight = s.get u .splitRight ∧
        s'.get u .splitLeft = s.get u .splitLeft) :
    RunsOk s' held (Function.update tags r.base ts) where
  bound := h.bound
  apart := h.apart
  tile r' hr' := by
    by_cases he : r' = r
    · rw [he, Function.update_self]
      exact htile
    · rw [Function.update_of_ne fun hb => he (h.base_inj hr' hr hb)]
      exact (h.tile r' hr').congr fun u hu => by rw [(hsame r' hr' he u hu).1]
  header u hu := by
    rcases (tagIn_update h hr).1 hu with hu | ⟨r', hr', he, hu⟩
    · exact hheader u hu
    · rw [(hsame r' hr' he u hu).1]
      exact h.header u ⟨r', hr', hu⟩
  linked r' hr' := by
    by_cases he : r' = r
    · rw [he, Function.update_self]
      exact hlinked
    · rw [Function.update_of_ne fun hb => he (h.base_inj hr' hr hb)]
      exact (h.linked r' hr').congr (fun u hu => (hsame r' hr' he u hu).2.1)
        fun u hu => (hsame r' hr' he u hu).2.2

/-! ### Melting -/

variable {l d n rem : UInt32} {xs ys : List UInt32}

/-- The other tags of a run. -/
theorem RunsOk.rest (h : RunsOk s held tags) (hr : r ∈ held) (htags : tags r.base = xs ++ t :: ys)
    (hu : u ∈ xs ++ ys) : TagIn held tags u ∧ u ≠ t := by
  have hnodup := (h.tile r hr).nodup
  rw [htags] at hnodup
  obtain ⟨_, htys, hdisj⟩ := List.nodup_append.1 hnodup
  rcases List.mem_append.1 hu with hu | hu
  · exact ⟨⟨r, hr, by rw [htags]; simp [hu]⟩, hdisj u hu t List.mem_cons_self⟩
  · refine ⟨⟨r, hr, by rw [htags]; simp [hu]⟩, ?_⟩
    rintro rfl
    exact (List.nodup_cons.1 htys).1 hu

/-- After melting, the links pass over `d`. -/
theorem RunsOk.linked_melds (h : RunsOk s held tags) (hr : r ∈ held)
    (htags : tags r.base = xs ++ l :: d :: ys) (hm : Melds (TagIn held tags) s s' l d) :
    Linked (fun t => s'.get t .splitRight) (fun t => s'.get t .splitLeft) 0 (xs ++ l :: ys) 0 := by
  have hin : ∀ u ∈ xs ++ l :: d :: ys, TagIn held tags u :=
    fun u hu => ⟨r, hr, by rw [htags]; exact hu⟩
  have hold : ∀ u ∈ xs ++ ys, TagIn held tags u ∧ u ≠ l := fun u hu => h.rest hr htags (by
    simp only [List.mem_append, List.mem_cons] at hu ⊢
    tauto)
  have hlT := hin l (by simp)
  have hlink := h.linked r hr
  have hne := fun u => h.ne_splitRight (u := u) hr (htags.trans (List.append_cons xs l (d :: ys)))
  rw [htags, List.append_cons] at hlink
  have hright : s.get d .splitRight = ys.headD 0 := hlink.next_eq
  rw [List.append_cons]
  apply hlink.remove
  · intro u hu
    rw [List.getLast?_concat, Option.mem_some_iff] at hu
    rw [← hu, hm.splitRight l hlT, if_pos rfl, hright]
  · intro u hu
    rw [List.dropLast_concat] at hu
    rw [hm.splitRight u (hold u hu).1, if_neg (hold u hu).2]
  · intro u hu
    have hfirst : u = s.get d .splitRight := by
      rw [hright, List.headD_eq_head?_getD, hu]
      rfl
    rw [hm.splitLeft u (hin u (by simp [List.mem_of_head? hu])), if_pos hfirst, getLastD_append]
    rfl
  · intro u hu
    have huT : u ∈ xs ++ l :: d :: ys := by
      simp only [List.mem_append, List.mem_cons] at hu ⊢
      rcases hu with hu | hu
      · tauto
      · exact Or.inr (Or.inr (Or.inr (List.mem_of_mem_tail hu)))
    rw [hm.splitLeft u (hin u huT), if_neg]
    apply hne
    simp only [List.mem_append, List.mem_cons] at hu ⊢
    tauto

theorem RunsOk.melds (h : RunsOk s held tags) (hr : r ∈ held)
    (htags : tags r.base = xs ++ l :: d :: ys) (hm : Melds (TagIn held tags) s s' l d) :
    RunsOk s' held (Function.update tags r.base (xs ++ l :: ys)) := by
  have hlT : TagIn held tags l := ⟨r, hr, by rw [htags]; simp⟩
  have hdT : TagIn held tags d := ⟨r, hr, by rw [htags]; simp⟩
  have hold : ∀ u ∈ xs ++ ys, TagIn held tags u ∧ u ≠ l := fun u hu => h.rest hr htags (by
    simp only [List.mem_append, List.mem_cons] at hu ⊢
    tauto)
  have htile := h.tile r hr
  rw [htags] at htile
  -- the two sizes add up without wrapping
  have hsum : (s'.get l .realSize).toNat = (s.get l .realSize).toNat + (s.get d .realSize).toNat := by
    have hle := h.realSize_le hlT
    have hde := h.realSize_le hdT
    rw [hm.realSize l hlT, if_pos rfl, toNat_add_of_lt (by omega)]
  have hsize : ∀ u ∈ xs ++ ys, s'.get u .realSize = s.get u .realSize := by
    intro u hu
    rw [hm.realSize u (hold u hu).1, if_neg (hold u hu).2]
  apply h.update hr
  · exact htile.melt hsum fun u hu => by rw [hsize u hu]
  · intro u hu
    by_cases hul : u = l
    · rw [hul, hsum]
      have := h.header l hlT
      omega
    · have hu' : u ∈ xs ++ ys := by
        simp only [List.mem_append, List.mem_cons] at hu ⊢
        tauto
      rw [hsize u hu']
      exact h.header u (hold u hu').1
  · exact h.linked_melds hr htags hm
  · intro r' hr' hne' u hu
    have huT : TagIn held tags u := ⟨r', hr', hu⟩
    have hul := h.ne_of_other hr hr' hne' hu (t := l) (by rw [htags]; simp)
    have hud := h.ne_of_other hr hr' hne' hu (t := d) (by rw [htags]; simp)
    refine ⟨?_, ?_, ?_⟩
    · rw [hm.realSize u huT, if_neg hul.1]
    · rw [hm.splitRight u huT, if_neg hul.1]
    · rw [hm.splitLeft u huT, if_neg hud.2]

/-- The tags left after melting. -/
theorem tagIn_melds (h : RunsOk s held tags) (hr : r ∈ held)
    (htags : tags r.base = xs ++ l :: d :: ys) :
    TagIn held (Function.update tags r.base (xs ++ l :: ys)) u ↔ TagIn held tags u ∧ u ≠ d := by
  have hnodup := (h.tile r hr).nodup
  rw [htags] at hnodup
  have hdnot : d ∉ xs ++ l :: ys := by
    intro hd
    rw [List.append_cons] at hnodup
    obtain ⟨_, hds, hdisj⟩ := List.nodup_append.1 hnodup
    rw [List.append_cons] at hd
    rcases List.mem_append.1 hd with hd | hd
    · exact hdisj d hd d List.mem_cons_self rfl
    · exact (List.nodup_cons.1 hds).1 hd
  rw [tagIn_update h hr]
  constructor
  · rintro (hu | ⟨r', hr', hne, hu⟩)
    · refine ⟨⟨r, hr, ?_⟩, ?_⟩
      · rw [htags]
        simp only [List.mem_append, List.mem_cons] at hu ⊢
        tauto
      · rintro rfl
        exact hdnot hu
    · refine ⟨⟨r', hr', hu⟩, ?_⟩
      rintro rfl
      exact hne (h.run_eq hr' hr hu (by rw [htags]; simp))
  · rintro ⟨⟨r', hr', hu⟩, hne⟩
    by_cases he : r' = r
    · subst he
      rw [htags] at hu
      left
      simp only [List.mem_append, List.mem_cons] at hu ⊢
      tauto
    · exact Or.inr ⟨r', hr', he, hu⟩

/-! ### Splitting -/

/-- No tag starts inside another one's bytes. -/
theorem RunsOk.notTag (h : RunsOk s held tags) (ht : TagIn held tags t) (h1 : t.toNat < n.toNat)
    (h2 : n.toNat < t.toNat + (s.get t .realSize).toNat) : ¬ TagIn held tags n := by
  intro hn
  have hne : t ≠ n := by
    rintro rfl
    omega
  have := h.disjoint ht hn hne
  omega

/-- After splitting, the links lead through the new tag. -/
theorem RunsOk.linked_splits (h : RunsOk s held tags) (hr : r ∈ held)
    (htags : tags r.base = xs ++ t :: ys) (hun : ∀ u, TagIn held tags u → u ≠ n)
    (hs : Splits (fun u => TagIn held tags u ∨ u = n) s s' t n rem) :
    Linked (fun t => s'.get t .splitRight) (fun t => s'.get t .splitLeft) 0 (xs ++ t :: n :: ys) 0 := by
  have htT : TagIn held tags t := ⟨r, hr, by rw [htags]; simp⟩
  have hold : ∀ u ∈ xs ++ ys, TagIn held tags u ∧ u ≠ n ∧ u ≠ t := fun u hu =>
    ⟨(h.rest hr htags hu).1, hun u (h.rest hr htags hu).1, (h.rest hr htags hu).2⟩
  have hlink := h.linked r hr
  have hne := fun u => h.ne_splitRight (u := u) hr htags
  rw [htags] at hlink
  have hright : s.get t .splitRight = ys.headD 0 := hlink.next_eq
  apply hlink.insert
  · rw [hs.splitRight t (Or.inl htT), if_neg (hun t htT), if_pos rfl]
  · rw [hs.splitRight n (Or.inr rfl), if_pos rfl, hright]
  · rw [hs.splitLeft n (Or.inr rfl), if_pos rfl]
  · rw [hs.splitLeft t (Or.inl htT), if_neg (hun t htT), if_neg (hne t (by simp))]
  · intro u hu
    have hfirst : u = s.get t .splitRight := by
      rw [hright, List.headD_eq_head?_getD, hu]
      rfl
    have huT := (hold u (List.mem_append_right _ (List.mem_of_head? hu))).1
    rw [hs.splitLeft u (Or.inl huT), if_neg (hun u huT), if_pos hfirst]
  · intro u hu
    obtain ⟨huT, hn, ht⟩ := hold u hu
    rw [hs.splitRight u (Or.inl huT), if_neg hn, if_neg ht]
  · intro u hu
    have hu' : u ∈ xs ++ ys := by
      rcases List.mem_append.1 hu with hu | hu
      · exact List.mem_append_left _ hu
      · exact List.mem_append_right _ (List.mem_of_mem_tail hu)
    obtain ⟨huT, hn, _⟩ := hold u hu'
    rw [hs.splitLeft u (Or.inl huT), if_neg hn, if_neg]
    apply hne
    simp only [List.mem_append, List.mem_cons] at hu ⊢
    tauto

theorem RunsOk.splits (h : RunsOk s held tags) (hr : r ∈ held) (htags : tags r.base = xs ++ t :: ys)
    (hrem : 32 ≤ rem.toNat) (hn : n.toNat + rem.toNat = t.toNat + (s.get t .realSize).toNat)
    (hlt : t.toNat + 32 ≤ n.toNat)
    (hs : Splits (fun u => TagIn held tags u ∨ u = n) s s' t n rem) :
    RunsOk s' held (Function.update tags r.base (xs ++ t :: n :: ys)) := by
  have htT : TagIn held tags t := ⟨r, hr, by rw [htags]; simp⟩
  have htile := h.tile r hr
  rw [htags] at htile
  have hun : ∀ u, TagIn held tags u → u ≠ n := by
    rintro u hu rfl
    exact h.notTag htT (by omega) (by omega) hu
  have hnsize : s'.get n .realSize = rem := by rw [hs.realSize n (Or.inr rfl), if_pos rfl]
  have htsize : (s'.get t .realSize).toNat = (s.get t .realSize).toNat - rem.toNat := by
    rw [hs.realSize t (Or.inl htT), if_neg (hun t htT), if_pos rfl, toNat_sub_of_le (by omega)]
  -- the tags that stay as they are
  have hsize : ∀ u ∈ xs ++ ys, s'.get u .realSize = s.get u .realSize := by
    intro u hu
    obtain ⟨huT, hut⟩ := h.rest hr htags hu
    rw [hs.realSize u (Or.inl huT), if_neg (hun u huT), if_neg hut]
  have hheader : ∀ u ∈ xs ++ ys, 32 ≤ (s'.get u .realSize).toNat := by
    intro u hu
    rw [hsize u hu]
    exact h.header u (h.rest hr htags hu).1
  apply h.update hr
  · refine htile.split ?_ ?_ ?_ ?_ fun u hu => by rw [hsize u hu]
    · rw [htsize]
      omega
    · rw [hnsize]
      omega
    · rw [htsize]
      omega
    · rw [htsize, hnsize]
      omega
  · intro u hu
    simp only [List.mem_append, List.mem_cons] at hu
    rcases hu with hu | rfl | rfl | hu
    · exact hheader u (List.mem_append_left _ hu)
    · rw [htsize]
      omega
    · rw [hnsize]
      exact hrem
    · exact hheader u (List.mem_append_right _ hu)
  · exact h.linked_splits hr htags hun hs
  · intro r' hr' hne' u hu
    have huT : TagIn held tags u := ⟨r', hr', hu⟩
    obtain ⟨hut, hur⟩ := h.ne_of_other hr hr' hne' hu (t := t) (by rw [htags]; simp)
    refine ⟨?_, ?_, ?_⟩
    · rw [hs.realSize u (Or.inl huT), if_neg (hun u huT), if_neg hut]
    · rw [hs.splitRight u (Or.inl huT), if_neg (hun u huT), if_neg hut]
    · rw [hs.splitLeft u (Or.inl huT), if_neg (hun u huT), if_neg hur]

/-- The tags there are after splitting. -/
theorem tagIn_splits (h : RunsOk s held tags) (hr : r ∈ held)
    (htags : tags r.base = xs ++ t :: ys) :
    TagIn held (Function.update tags r.base (xs ++ t :: n :: ys)) u ↔
      TagIn held tags u ∨ u = n := by
  rw [tagIn_update h hr]
  constructor
  · rintro (hu | ⟨r', hr', _, hu⟩)
    · simp only [List.mem_append, List.mem_cons] at hu
      by_cases hun : u = n
      · exact Or.inr hun
      · refine Or.inl ⟨r, hr, ?_⟩
        rw [htags]
        simp only [List.mem_append, List.mem_cons]
        tauto
    · exact Or.inl ⟨r', hr', hu⟩
  · rintro (⟨r', hr', hu⟩ | rfl)
    · by_cases he : r' = r
      · subst he
        rw [htags] at hu
        left
        simp only [List.mem_append, List.mem_cons] at hu ⊢
        tauto
      · exact Or.inr ⟨r', hr', he, hu⟩
    · left
      simp

/-! ### Runs that come and go -/

/-- A fresh run starts where no other does. -/
theorem RunsOk.base_ne (h : RunsOk s held tags) (hfresh : FreshRun held r)
    (hpages : 0 < r.pages.toNat) : ∀ r' ∈ held, r'.base ≠ r.base := by
  intro r' hr' hb
  have hstop : r.stop = r.base.toNat + 4096 * r.pages.toNat := rfl
  have h1 := h.bound r' hr'
  have h2 : r'.stop = r'.base.toNat + 4096 * r'.pages.toNat := rfl
  have h3 := hfresh.2 r' hr'
  unfold PageRun.Apart at h3
  rw [hb] at h2 h3
  omega

/-- A new run whose only tag covers it. -/
theorem RunsOk.add (h : RunsOk s held tags) (hbase : r.base ≠ 0) (hpages : 0 < r.pages.toNat)
    (hmax : r.pages.toNat ≤ 2 ^ 18 + 1) (hfresh : FreshRun held r)
    (hsize : (s'.get r.base .realSize).toNat = 4096 * r.pages.toNat)
    (hleft : s'.get r.base .splitLeft = 0) (hright : s'.get r.base .splitRight = 0)
    (hsame : ∀ u, TagIn held tags u → s'.get u .realSize = s.get u .realSize ∧
      s'.get u .splitRight = s.get u .splitRight ∧ s'.get u .splitLeft = s.get u .splitLeft) :
    RunsOk s' (r :: held) (Function.update tags r.base [r.base]) := by
  have hstop : r.stop = r.base.toNat + 4096 * r.pages.toNat := rfl
  have hne := h.base_ne hfresh hpages
  constructor
  · intro r' hr'
    rcases List.mem_cons.1 hr' with rfl | hr'
    · exact ⟨hbase, hpages, hmax, hfresh.1⟩
    · exact h.bound r' hr'
  · exact List.pairwise_cons.2 ⟨hfresh.2, h.apart⟩
  · intro r' hr'
    rcases List.mem_cons.1 hr' with rfl | hr'
    · rw [Function.update_self, tiles_singleton]
      omega
    · rw [Function.update_of_ne (hne r' hr')]
      exact (h.tile r' hr').congr fun u hu => by rw [(hsame u ⟨r', hr', hu⟩).1]
  · rintro u ⟨r', hr', hu⟩
    rcases List.mem_cons.1 hr' with rfl | hr'
    · rw [Function.update_self, List.mem_singleton] at hu
      rw [hu, hsize]
      omega
    · rw [Function.update_of_ne (hne r' hr')] at hu
      rw [(hsame u ⟨r', hr', hu⟩).1]
      exact h.header u ⟨r', hr', hu⟩
  · intro r' hr'
    rcases List.mem_cons.1 hr' with rfl | hr'
    · rw [Function.update_self, linked_singleton]
      exact ⟨hleft, hright⟩
    · rw [Function.update_of_ne (hne r' hr')]
      exact (h.linked r' hr').congr (fun u hu => (hsame u ⟨r', hr', hu⟩).2.1)
        fun u hu => (hsame u ⟨r', hr', hu⟩).2.2

theorem tagIn_add (h : RunsOk s held tags) (hfresh : FreshRun held r) (hpages : 0 < r.pages.toNat) :
    TagIn (r :: held) (Function.update tags r.base [r.base]) u ↔
      TagIn held tags u ∨ u = r.base := by
  have hne := h.base_ne hfresh hpages
  constructor
  · rintro ⟨r', hr', hu⟩
    rcases List.mem_cons.1 hr' with rfl | hr'
    · rw [Function.update_self, List.mem_singleton] at hu
      exact Or.inr hu
    · rw [Function.update_of_ne (hne r' hr')] at hu
      exact Or.inl ⟨r', hr', hu⟩
  · rintro (⟨r', hr', hu⟩ | rfl)
    · refine ⟨r', List.mem_cons_of_mem _ hr', ?_⟩
      rwa [Function.update_of_ne (hne r' hr')]
    · refine ⟨r, List.mem_cons_self, ?_⟩
      rw [Function.update_self]
      exact List.mem_singleton_self _

/-- A run given back. -/
theorem RunsOk.drop (h : RunsOk s held tags) (r : PageRun) :
    RunsOk s (held.filter fun run => some run ≠ some r) tags where
  bound r' hr' := h.bound r' (List.mem_of_mem_filter hr')
  apart := h.apart.filter _
  tile r' hr' := h.tile r' (List.mem_of_mem_filter hr')
  header u hu := by
    obtain ⟨r', hr', hu⟩ := hu
    exact h.header u ⟨r', List.mem_of_mem_filter hr', hu⟩
  linked r' hr' := h.linked r' (List.mem_of_mem_filter hr')

theorem tagIn_drop (h : RunsOk s held tags) (hr : r ∈ held) :
    TagIn (held.filter fun run => some run ≠ some r) tags u ↔
      TagIn held tags u ∧ u ∉ tags r.base := by
  constructor
  · rintro ⟨r', hr', hu⟩
    obtain ⟨hr', hne⟩ := List.mem_filter.1 hr'
    refine ⟨⟨r', hr', hu⟩, fun hu' => ?_⟩
    simp only [ne_eq, Option.some.injEq, decide_not, Bool.not_eq_eq_eq_not, Bool.not_true,
      decide_eq_false_iff_not] at hne
    exact hne (h.run_eq hr' hr hu hu')
  · rintro ⟨⟨r', hr', hu⟩, hnot⟩
    refine ⟨r', List.mem_filter.2 ⟨hr', ?_⟩, hu⟩
    have hne : r' ≠ r := by
      rintro rfl
      exact hnot hu
    simp [hne]

end Runs

end CometOS
