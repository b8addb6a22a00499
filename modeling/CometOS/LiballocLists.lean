import CometOS.LiballocTags
import CometOS.Lib.LinkedList

/-!
# The lists of free tags

`FreeLists s T free` says that `free i` is the list threaded from `l_freePages[i]`, and that between
them the lists have each tag of `T` with an index once.  What a step does to them follows from what
it does to the links, the indices and the array, whichever functions it is made of: `Unlinks` and
`Inserts` are the two effects, and `remove_tag` and `insert_tag` have them.
-/

namespace CometOS

open ByteMemory LinkedList Loop Record Run Word32

structure FreeLists (s : Liballoc) (T : UInt32 → Prop) (free : ℤ → List UInt32) : Prop where
  linked : ∀ i, 0 ≤ i → Linked (fun t => s.get t .next) (fun t => s.get t .prev) 0 (free i) 0
  head : ∀ i, 0 ≤ i → s.freePages i = (free i).headD 0
  mem : ∀ i, 0 ≤ i → ∀ t, t ∈ free i ↔ T t ∧ s.index t = i

/-- Tag `t` leaves its list. -/
structure Unlinks (T : UInt32 → Prop) (s s' : Liballoc) (t : UInt32) : Prop where
  index : ∀ u, T u → s'.index u = if u = t then -1 else s.index u
  next : ∀ u, T u → s'.get u .next =
    if u = t then 0 else if u = s.get t .prev then s.get t .next else s.get u .next
  prev : ∀ u, T u → s'.get u .prev =
    if u = t then 0 else if u = s.get t .next then s.get t .prev else s.get u .prev
  freePages : s'.freePages =
    if s.freePages (s.index t) = t then
      Function.update s.freePages (s.index t) (s.get t .next)
    else s.freePages

/-- Tag `t` goes to the front of list `r`. -/
structure Inserts (T : UInt32 → Prop) (s s' : Liballoc) (t : UInt32) (r : ℤ) : Prop where
  index : ∀ u, T u → s'.index u = if u = t then r else s.index u
  next : ∀ u, T u → s'.get u .next = if u = t then s.freePages r else s.get u .next
  prev : ∀ u, T u → s'.get u .prev = if u = s.freePages r then t else s.get u .prev
  freePages : s'.freePages = Function.update s.freePages r t

section Lists

variable {T T' : UInt32 → Prop} {s s' : Liballoc} {free : ℤ → List UInt32} {t : UInt32}

theorem removeTag_unlinks (hT : boundaryTag.Separated T) (ht : T t) (hl : ListNeighbours T s t) :
    Unlinks T s (removeTag t s) t where
  index u hu := (removeTag_spec hT ht hl hu).1
  next u hu := by
    rw [(removeTag_spec hT ht hl hu).2 .next (by decide)]
    simp
  prev u hu := by
    rw [(removeTag_spec hT ht hl hu).2 .prev (by decide)]
    simp
  freePages := removeTag_freePages

theorem insertTag_inserts (hT : boundaryTag.Separated T) {i r : ℤ} (hr : insertIndex t i s = r)
    (hr0 : 0 ≤ r) (hr1 : r < 32) (ht : T t) (hhead : s.freePages r ≠ 0 → T (s.freePages r))
    (hne : s.freePages r ≠ t) (hnull : s.get t .next = 0) : Inserts T s (insertTag t i s) t r where
  index u hu := (insertTag_spec hT hr hr0 hr1 ht hhead hne hnull hu).1
  next u hu := by
    rw [(insertTag_spec hT hr hr0 hr1 ht hhead hne hnull hu).2 .next (by decide)]
    simp
  prev u hu := by
    rw [(insertTag_spec hT hr hr0 hr1 ht hhead hne hnull hu).2 .prev (by decide)]
    simp
  freePages := by rw [insertTag_freePages, hr]

/-! ### What the lists hold -/

theorem FreeLists.zero_notMem (hF : FreeLists s T free) (hT : boundaryTag.Separated T) {i : ℤ}
    (hi : 0 ≤ i) : 0 ∉ free i := fun h => hT.zero ((hF.mem i hi 0).1 h).1

theorem FreeLists.nodup (hF : FreeLists s T free) (hT : boundaryTag.Separated T) {i : ℤ}
    (hi : 0 ≤ i) : (free i).Nodup :=
  (hF.linked i hi).nodup (hF.zero_notMem hT hi)

theorem FreeLists.head_mem (hF : FreeLists s T free) {i : ℤ} (hi : 0 ≤ i)
    (h : s.freePages i ≠ 0) : s.freePages i ∈ free i := by
  rw [hF.head i hi] at h ⊢
  apply headD_mem
  intro hnil
  rw [hnil] at h
  exact h rfl

/-- The neighbours of a free tag are in the same list. -/
theorem FreeLists.neighbours_mem (hF : FreeLists s T free) {i : ℤ} (hi : 0 ≤ i) (ht : t ∈ free i) :
    (s.get t .prev = 0 ∨ s.get t .prev ∈ free i) ∧
      (s.get t .next = 0 ∨ s.get t .next ∈ free i) :=
  ⟨((hF.linked i hi).prev_mem ht).imp_right And.left,
    ((hF.linked i hi).next_mem ht).imp_right And.left⟩

theorem FreeLists.neighbours (hF : FreeLists s T free) (hT : boundaryTag.Separated T) (ht : T t)
    (hi : 0 ≤ s.index t) : ListNeighbours T s t := by
  have hmem := (hF.mem _ hi t).2 ⟨ht, rfl⟩
  have hnodup := hF.nodup hT hi
  obtain ⟨hp, hn⟩ := hF.neighbours_mem hi hmem
  obtain ⟨xs, ys, heq⟩ := List.append_of_mem hmem
  have hlink := hF.linked _ hi
  rw [heq] at hlink hnodup
  have hprev : s.get t .prev = xs.getLastD 0 := hlink.prev_eq
  have hnext : s.get t .next = ys.headD 0 := hlink.next_eq
  have ht0 := hT.ne_zero ht
  refine ⟨fun h => ((hF.mem _ hi _).1 (hp.resolve_left h)).1,
    fun h => ((hF.mem _ hi _).1 (hn.resolve_left h)).1, ?_, ?_⟩
  · rw [hprev]
    rcases eq_or_ne xs [] with rfl | hxs
    · exact ht0.symm
    · rintro h
      have hin := getLastD_mem (p := 0) hxs
      rw [h] at hin
      exact (List.nodup_append.1 hnodup).2.2 t hin t List.mem_cons_self rfl
  · rw [hnext]
    rcases eq_or_ne ys [] with rfl | hys
    · exact ht0.symm
    · rintro h
      have hin := headD_mem (p := 0) hys
      rw [h] at hin
      exact (List.nodup_cons.1 (List.nodup_append.1 hnodup).2.1).1 hin

/-- A step that leaves the free tags and the array alone. -/
theorem FreeLists.congr (hF : FreeLists s T free) (hpages : s'.freePages = s.freePages)
    (hkeep : ∀ u, T u → 0 ≤ s.index u → T' u ∧ s'.index u = s.index u ∧
      s'.get u .next = s.get u .next ∧ s'.get u .prev = s.get u .prev)
    (hback : ∀ u, T' u → 0 ≤ s'.index u → T u ∧ s'.index u = s.index u) :
    FreeLists s' T' free where
  linked i hi := by
    refine (hF.linked i hi).congr (fun u hu => ?_) fun u hu => ?_
    · obtain ⟨hTu, hidx⟩ := (hF.mem i hi u).1 hu
      exact (hkeep u hTu (by omega)).2.2.1
    · obtain ⟨hTu, hidx⟩ := (hF.mem i hi u).1 hu
      exact (hkeep u hTu (by omega)).2.2.2
  head i hi := by rw [hpages, hF.head i hi]
  mem i hi u := by
    rw [hF.mem i hi]
    constructor
    · rintro ⟨hu, hidx⟩
      have h := hkeep u hu (by omega)
      exact ⟨h.1, by rw [h.2.1, hidx]⟩
    · rintro ⟨hu, hidx⟩
      have h := hback u hu (by omega)
      exact ⟨h.1, by rw [← h.2, hidx]⟩

/-! ### Removing -/

/-- A tag of another list is neither the tag that is removed nor a neighbour of it. -/
theorem FreeLists.ne_of_other (hF : FreeLists s T free) (hT : boundaryTag.Separated T) (ht : T t)
    (hi : 0 ≤ s.index t) {j : ℤ} (hj : 0 ≤ j) (hne : j ≠ s.index t) {u : UInt32} (hu : u ∈ free j) :
    u ≠ t ∧ u ≠ s.get t .prev ∧ u ≠ s.get t .next := by
  obtain ⟨hpmem, hnmem⟩ := hF.neighbours_mem hi ((hF.mem _ hi t).2 ⟨ht, rfl⟩)
  obtain ⟨huT, hidx⟩ := (hF.mem j hj u).1 hu
  have hu0 := hT.ne_zero huT
  refine ⟨?_, ?_, ?_⟩
  · rintro rfl
    exact hne hidx.symm
  · rintro rfl
    exact hne (hidx.symm.trans ((hF.mem _ hi _).1 (hpmem.resolve_left hu0)).2)
  · rintro rfl
    exact hne (hidx.symm.trans ((hF.mem _ hi _).1 (hnmem.resolve_left hu0)).2)

theorem FreeLists.linked_removed (hF : FreeLists s T free) (hT : boundaryTag.Separated T) (ht : T t)
    (hi : 0 ≤ s.index t) (hun : Unlinks T s s' t) {j : ℤ} (hj : 0 ≤ j) :
    Linked (fun u => s'.get u .next) (fun u => s'.get u .prev) 0
      (Function.update free (s.index t) ((free (s.index t)).erase t) j) 0 := by
  have hsub : ∀ u ∈ free j, T u := fun u hu => ((hF.mem j hj u).1 hu).1
  by_cases hji : j = s.index t
  · subst hji
    rw [Function.update_self]
    have hnodup := hF.nodup hT hi
    have hzero := hF.zero_notMem hT hi
    have hin : ∀ u ∈ (free (s.index t)).erase t, T u ∧ u ≠ t := by
      intro u hu
      rw [List.Nodup.mem_erase_iff hnodup] at hu
      exact ⟨hsub u hu.2, hu.1⟩
    refine (hF.linked _ hi).erase hnodup ((hF.mem _ hi t).2 ⟨ht, rfl⟩) hzero hzero (fun u hu => ?_)
      fun u hu => ?_
    · obtain ⟨huT, hut⟩ := hin u hu
      rw [hun.next u huT, if_neg hut]
    · obtain ⟨huT, hut⟩ := hin u hu
      rw [hun.prev u huT, if_neg hut]
  · rw [Function.update_of_ne hji]
    refine (hF.linked j hj).congr (fun u hu => ?_) fun u hu => ?_
    · obtain ⟨h1, h2, _⟩ := hF.ne_of_other hT ht hi hj hji hu
      rw [hun.next u (hsub u hu), if_neg h1, if_neg h2]
    · obtain ⟨h1, _, h3⟩ := hF.ne_of_other hT ht hi hj hji hu
      rw [hun.prev u (hsub u hu), if_neg h1, if_neg h3]

theorem FreeLists.head_removed (hF : FreeLists s T free) (ht : T t) (hi : 0 ≤ s.index t)
    (hun : Unlinks T s s' t) {j : ℤ} (hj : 0 ≤ j) :
    s'.freePages j = (Function.update free (s.index t) ((free (s.index t)).erase t) j).headD 0 := by
  rw [hun.freePages]
  by_cases hji : j = s.index t
  · subst hji
    rw [Function.update_self, (hF.linked _ hi).headD_erase ((hF.mem _ hi t).2 ⟨ht, rfl⟩), ← hF.head _ hi]
    split
    · rw [Function.update_self]
    · rfl
  · rw [Function.update_of_ne hji, ← hF.head j hj]
    split
    · rw [Function.update_of_ne hji]
    · rfl

theorem FreeLists.mem_removed (hF : FreeLists s T free) (hT : boundaryTag.Separated T)
    (hi : 0 ≤ s.index t) (hun : Unlinks T s s' t) {j : ℤ} (hj : 0 ≤ j) (u : UInt32) :
    u ∈ Function.update free (s.index t) ((free (s.index t)).erase t) j ↔ T u ∧ s'.index u = j := by
  have hin : u ∈ Function.update free (s.index t) ((free (s.index t)).erase t) j ↔
      u ≠ t ∧ u ∈ free j := by
    by_cases hji : j = s.index t
    · subst hji
      rw [Function.update_self, List.Nodup.mem_erase_iff (hF.nodup hT hi)]
    · rw [Function.update_of_ne hji]
      refine (and_iff_right_of_imp fun hu => ?_).symm
      rintro rfl
      exact hji ((hF.mem j hj u).1 hu).2.symm
  rw [hin, hF.mem j hj]
  constructor
  · rintro ⟨hut, hu, hidx⟩
    exact ⟨hu, by rw [hun.index u hu, if_neg hut, hidx]⟩
  · rintro ⟨hu, hidx⟩
    rw [hun.index u hu] at hidx
    by_cases hut : u = t
    · rw [if_pos hut] at hidx
      omega
    · rw [if_neg hut] at hidx
      exact ⟨hut, hu, hidx⟩

/-- **Removing** a free tag from its list. -/
theorem FreeLists.remove (hF : FreeLists s T free) (hT : boundaryTag.Separated T) (ht : T t)
    (hi : 0 ≤ s.index t) (hun : Unlinks T s s' t) :
    FreeLists s' T
      (Function.update free (s.index t) ((free (s.index t)).erase t)) where
  linked _ hj := hF.linked_removed hT ht hi hun hj
  head _ hj := hF.head_removed ht hi hun hj
  mem _ hj u := hF.mem_removed hT hi hun hj u

/-! ### Inserting -/

theorem FreeLists.ne_of_unlisted (hF : FreeLists s T free) (hnot : ¬ (T t ∧ 0 ≤ s.index t)) {j : ℤ}
    (hj : 0 ≤ j) {u : UInt32} (hu : u ∈ free j) : u ≠ t := by
  rintro rfl
  obtain ⟨h1, h2⟩ := (hF.mem j hj u).1 hu
  exact hnot ⟨h1, by omega⟩

/-- The list that the tag goes to. -/
theorem FreeLists.linked_front (hF : FreeLists s T free) (hT : boundaryTag.Separated T')
    (hT' : ∀ u, T' u ↔ T u ∨ u = t) {r : ℤ} (hr : 0 ≤ r) (hnot : ¬ (T t ∧ 0 ≤ s.index t))
    (hprev : s.get t .prev = 0) (hins : Inserts T' s s' t r) :
    Linked (fun u => s'.get u .next) (fun u => s'.get u .prev) 0 (t :: free r) 0 := by
  have htT : T' t := (hT' t).2 (Or.inr rfl)
  have hsub : ∀ u ∈ free r, T' u := fun u hu => (hT' u).2 (Or.inl ((hF.mem r hr u).1 hu).1)
  have hnodup := (hF.linked r hr).nodup fun h0 => hT.zero (hsub 0 h0)
  have hhead := hF.head r hr
  apply (hF.linked r hr).push
  · rw [hins.next t htT, if_pos rfl, hhead]
  · rw [hins.prev t htT, if_neg, hprev]
    intro h
    by_cases h0 : s.freePages r = 0
    · exact hT.ne_zero htT (h.trans h0)
    · exact hF.ne_of_unlisted hnot hr (hF.head_mem hr h0) h.symm
  · intro u hu
    have hfirst : u = s.freePages r := by
      rw [hhead, List.headD_eq_head?_getD, hu]
      rfl
    rw [hins.prev u (hsub u (List.mem_of_head? hu)), if_pos hfirst]
  · intro u hu
    rw [hins.next u (hsub u hu), if_neg (hF.ne_of_unlisted hnot hr hu)]
  · intro u hu
    have hur := List.mem_of_mem_tail hu
    rw [hins.prev u (hsub u hur), if_neg]
    intro h
    cases hfree : free r with
    | nil =>
      rw [hfree] at hu
      cases hu
    | cons y ys =>
      rw [hfree] at hu hnodup hhead
      rw [h, hhead] at hu
      exact (List.nodup_cons.1 hnodup).1 hu

/-- Another list: its tags are not the first one of that list. -/
theorem FreeLists.linked_other (hF : FreeLists s T free) (hT : boundaryTag.Separated T')
    (hT' : ∀ u, T' u ↔ T u ∨ u = t) {r : ℤ} (hr : 0 ≤ r) (hnot : ¬ (T t ∧ 0 ≤ s.index t))
    (hins : Inserts T' s s' t r) {j : ℤ} (hj : 0 ≤ j) (hjr : j ≠ r) :
    Linked (fun u => s'.get u .next) (fun u => s'.get u .prev) 0 (free j) 0 := by
  have hsub : ∀ u ∈ free j, T' u := fun u hu => (hT' u).2 (Or.inl ((hF.mem j hj u).1 hu).1)
  refine (hF.linked j hj).congr (fun u hu => ?_) fun u hu => ?_
  · rw [hins.next u (hsub u hu), if_neg (hF.ne_of_unlisted hnot hj hu)]
  · rw [hins.prev u (hsub u hu), if_neg]
    intro h
    have h0 : s.freePages r ≠ 0 := by
      rw [← h]
      exact hT.ne_zero (hsub u hu)
    have hidx := ((hF.mem r hr _).1 (hF.head_mem hr h0)).2
    rw [← h, ((hF.mem j hj u).1 hu).2] at hidx
    exact hjr hidx

theorem FreeLists.mem_inserted (hF : FreeLists s T free) (hT' : ∀ u, T' u ↔ T u ∨ u = t) {r : ℤ}
    (hnot : ¬ (T t ∧ 0 ≤ s.index t)) (hins : Inserts T' s s' t r) {j : ℤ} (hj : 0 ≤ j) (u : UInt32) :
    u ∈ Function.update free r (t :: free r) j ↔ T' u ∧ s'.index u = j := by
  have htT : T' t := (hT' t).2 (Or.inr rfl)
  have hin : u ∈ Function.update free r (t :: free r) j ↔ (j = r ∧ u = t) ∨ u ∈ free j := by
    by_cases hjr : j = r
    · subst hjr
      rw [Function.update_self, List.mem_cons]
      simp
    · rw [Function.update_of_ne hjr]
      simp [hjr]
  rw [hin, hF.mem j hj]
  constructor
  · rintro (⟨rfl, rfl⟩ | ⟨hu, hidx⟩)
    · exact ⟨htT, by rw [hins.index u htT, if_pos rfl]⟩
    · have hut : u ≠ t := hF.ne_of_unlisted hnot hj ((hF.mem j hj u).2 ⟨hu, hidx⟩)
      have huT := (hT' u).2 (Or.inl hu)
      exact ⟨huT, by rw [hins.index u huT, if_neg hut, hidx]⟩
  · rintro ⟨hu, hidx⟩
    rw [hins.index u hu] at hidx
    by_cases hut : u = t
    · rw [if_pos hut] at hidx
      exact Or.inl ⟨hidx.symm, hut⟩
    · rw [if_neg hut] at hidx
      exact Or.inr ⟨((hT' u).1 hu).resolve_right hut, hidx⟩

/-- **Inserting** a tag that is in no list. -/
theorem FreeLists.insert (hF : FreeLists s T free) (hT : boundaryTag.Separated T')
    (hT' : ∀ u, T' u ↔ T u ∨ u = t) {r : ℤ} (hr : 0 ≤ r) (hnot : ¬ (T t ∧ 0 ≤ s.index t))
    (hprev : s.get t .prev = 0) (hins : Inserts T' s s' t r) :
    FreeLists s' T' (Function.update free r (t :: free r)) where
  linked j hj := by
    by_cases hjr : j = r
    · subst hjr
      rw [Function.update_self]
      exact hF.linked_front hT hT' hj hnot hprev hins
    · rw [Function.update_of_ne hjr]
      exact hF.linked_other hT hT' hr hnot hins hj hjr
  head j hj := by
    rw [hins.freePages]
    by_cases hjr : j = r
    · subst hjr
      rw [Function.update_self, Function.update_self]
      rfl
    · rw [Function.update_of_ne hjr, Function.update_of_ne hjr, hF.head j hj]
  mem _ hj u := hF.mem_inserted hT' hnot hins hj u

/-! ### Searching -/

/-- **The search of `malloc`** ends with the first tag of the list that is large enough, or with 0. -/
theorem mallocSearch_eq (hF : FreeLists s T free) (hT : boundaryTag.Separated T) {i : ℤ}
    (hi : 0 ≤ i) (size : UInt32) :
    mallocSearch size s (s.freePages i) =
      some (((free i).find? fun t => size + 32 ≤ s.get t .realSize - 32).getD 0) := by
  have hlen := length_lt_of_nodup (hF.nodup hT hi) (hF.zero_notMem hT hi)
  have hwalk : ∀ (xs : List UInt32) (p : UInt32) (n : ℕ),
      Linked (fun t => s.get t .next) (fun t => s.get t .prev) p xs 0 → 0 ∉ xs → xs.length < n →
      whileLoop (fun tag => tag ≠ 0 ∧ ¬ size + 32 ≤ s.get tag .realSize - 32)
          (fun tag => some (s.get tag .next)) n (xs.headD 0) =
        some ((xs.find? fun t => size + 32 ≤ s.get t .realSize - 32).getD 0) := by
    intro xs
    induction xs with
    | nil =>
      intro p n _ _ hn
      obtain ⟨k, rfl⟩ := Nat.exists_eq_succ_of_ne_zero (n := n) (by omega)
      rw [whileLoop_succ]
      simp
    | cons x xs ih =>
      intro p n hlink h0 hn
      obtain ⟨_, hnext, hrest⟩ := hlink
      rw [List.mem_cons, not_or] at h0
      obtain ⟨k, rfl⟩ := Nat.exists_eq_succ_of_ne_zero (n := n) (by omega)
      rw [List.headD_cons, whileLoop_succ]
      by_cases hfit : size + 32 ≤ s.get x .realSize - 32
      · simp [hfit]
      · have hx0 : x ≠ 0 := fun h => h0.1 h.symm
        have hnext' : s.get x .next = xs.headD 0 := hnext
        rw [if_pos (by simp [hfit, hx0]), Option.bind_some, hnext',
          ih x k hrest h0.2 (by simpa using hn)]
        simp [hfit]
  rw [mallocSearch, hF.head i hi]
  exact hwalk (free i) 0 _ (hF.linked i hi) (hF.zero_notMem hT hi) hlen

end Lists

end CometOS
