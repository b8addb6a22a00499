import Mathlib.Tactic

/-!
# Doubly linked lists

A doubly linked list is two link functions `next` and `prev` on nodes and the list of nodes they
thread.  `Linked next prev p xs q` says that the links run through `xs` in order, from the
predecessor `p` of the first node to the successor `q` of the last.  Cutting, appending, changing
one link at an end, dropping a node and turning the list round are the operations; the links of
other nodes never matter (`Linked.congr`).
-/

namespace LinkedList

variable {α : Type*} {next prev next' prev' : α → α}

theorem getLastD_mem {xs : List α} {p : α} (h : xs ≠ []) : xs.getLastD p ∈ xs := by
  rw [List.getLastD_eq_getLast?, List.getLast?_eq_some_getLast h]
  exact List.getLast_mem h

theorem headD_mem {xs : List α} {p : α} (h : xs ≠ []) : xs.headD p ∈ xs := by
  cases xs with
  | nil => exact absurd rfl h
  | cons x xs => exact List.mem_cons_self

/-- The links thread `xs` between `p` and `q`. -/
def Linked (next prev : α → α) : α → List α → α → Prop
  | _, [], _ => True
  | p, x :: xs, q => prev x = p ∧ next x = xs.headD q ∧ Linked next prev x xs q

@[simp] theorem linked_nil (p q : α) : Linked next prev p [] q := trivial

theorem linked_cons (p x q : α) (xs : List α) :
    Linked next prev p (x :: xs) q ↔
      prev x = p ∧ next x = xs.headD q ∧ Linked next prev x xs q := Iff.rfl

/-- Only the links of the listed nodes matter. -/
theorem Linked.congr {p q : α} {xs : List α} (h : Linked next prev p xs q)
    (hn : ∀ x ∈ xs, next' x = next x) (hp : ∀ x ∈ xs, prev' x = prev x) :
    Linked next' prev' p xs q := by
  induction xs generalizing p with
  | nil => trivial
  | cons x xs ih =>
    obtain ⟨h1, h2, h3⟩ := h
    refine ⟨?_, ?_, ih h3 (fun y hy => hn y ?_) (fun y hy => hp y ?_)⟩
    · rw [hp x List.mem_cons_self, h1]
    · rw [hn x List.mem_cons_self, h2]
    · exact List.mem_cons_of_mem x hy
    · exact List.mem_cons_of_mem x hy

theorem headD_append (xs ys : List α) (q : α) : (xs ++ ys).headD q = xs.headD (ys.headD q) := by
  cases xs <;> rfl

theorem getLastD_cons (x : α) (xs : List α) (p : α) : (x :: xs).getLastD p = xs.getLastD x := by
  cases xs with
  | nil => rfl
  | cons y ys => rfl

theorem getLastD_append (xs ys : List α) (p : α) :
    (xs ++ ys).getLastD p = ys.getLastD (xs.getLastD p) := by
  induction xs generalizing p with
  | nil => rfl
  | cons x xs ih => rw [List.cons_append, getLastD_cons, getLastD_cons, ih]

/-- **Cutting.**  A threaded list is its two parts, each threaded up to the other. -/
theorem linked_append (p q : α) (xs ys : List α) :
    Linked next prev p (xs ++ ys) q ↔
      Linked next prev p xs (ys.headD q) ∧ Linked next prev (xs.getLastD p) ys q := by
  induction xs generalizing p with
  | nil => simp
  | cons x xs ih =>
    rw [List.cons_append, linked_cons, linked_cons, ih, getLastD_cons, headD_append]
    tauto

/-- Following `prev` from the other end is following `next`. -/
theorem linked_reverse (p q : α) (xs : List α) :
    Linked next prev p xs q ↔ Linked prev next q xs.reverse p := by
  induction xs generalizing p with
  | nil => simp
  | cons x xs ih =>
    rw [linked_cons, ih x, List.reverse_cons, linked_append, linked_cons]
    have hlast : xs.reverse.getLastD q = xs.headD q := by
      cases xs with
      | nil => rfl
      | cons y ys => simp [List.getLastD_eq_getLast?]
    simp only [linked_nil, and_true, List.headD_cons, List.headD_nil, hlast]
    tauto

theorem linked_singleton (p x q : α) : Linked next prev p [x] q ↔ prev x = p ∧ next x = q := by
  simp [linked_cons]

/-- The successor of a node inside a threaded list. -/
theorem Linked.next_eq {p q x : α} {xs ys : List α} (h : Linked next prev p (xs ++ x :: ys) q) :
    next x = ys.headD q :=
  (((linked_append p q xs (x :: ys)).1 h).2).2.1

/-- The predecessor of a node inside a threaded list. -/
theorem Linked.prev_eq {p q x : α} {xs ys : List α} (h : Linked next prev p (xs ++ x :: ys) q) :
    prev x = xs.getLastD p :=
  (((linked_append p q xs (x :: ys)).1 h).2).1

/-- Going on and back again ends where it started. -/
theorem Linked.next_mem {p q x : α} {xs : List α} (h : Linked next prev p xs q) (hx : x ∈ xs) :
    next x = q ∨ (next x ∈ xs ∧ prev (next x) = x) := by
  obtain ⟨as, bs, rfl⟩ := List.append_of_mem hx
  rw [h.next_eq]
  cases bs with
  | nil => exact Or.inl rfl
  | cons y ys =>
    right
    rw [List.headD_cons]
    refine ⟨by simp, ?_⟩
    rw [List.append_cons] at h
    rw [h.prev_eq, getLastD_append]
    rfl

/-- Going back and on again likewise. -/
theorem Linked.prev_mem {p q x : α} {xs : List α} (h : Linked next prev p xs q) (hx : x ∈ xs) :
    prev x = p ∨ (prev x ∈ xs ∧ next (prev x) = x) := by
  rcases ((linked_reverse p q xs).1 h).next_mem (List.mem_reverse.2 hx) with hp | ⟨hm, hback⟩
  · exact Or.inl hp
  · exact Or.inr ⟨List.mem_reverse.1 hm, hback⟩

/-- A node with the ends for neighbours is the only one. -/
theorem Linked.eq_singleton {p q x : α} {xs : List α} (h : Linked next prev p xs q) (hx : x ∈ xs)
    (hnext : next x = q) (hprev : prev x = p) (hp : p ∉ xs) (hq : q ∉ xs) : xs = [x] := by
  obtain ⟨as, bs, rfl⟩ := List.append_of_mem hx
  rw [h.next_eq] at hnext
  rw [h.prev_eq] at hprev
  have hbs : bs = [] := by
    cases bs with
    | nil => rfl
    | cons y ys =>
      refine absurd ?_ hq
      rw [← hnext]
      simp
  have has : as = [] := by
    rcases List.eq_nil_or_concat as with rfl | ⟨zs, z, rfl⟩
    · rfl
    · refine absurd ?_ hp
      rw [← hprev]
      simp
  rw [has, hbs, List.nil_append]

/-! ### Following the links -/

/-- The nodes met from `x` on before `stop`, for at most the given number of steps. -/
def walk [DecidableEq α] (next : α → α) (stop : α) : ℕ → α → List α
  | 0, _ => []
  | n + 1, x => if x = stop then [] else x :: walk next stop n (next x)

/-- **Walking a threaded list visits exactly its nodes, in order.** -/
theorem Linked.walk_eq [DecidableEq α] {p q : α} {xs : List α} (h : Linked next prev p xs q)
    (hq : q ∉ xs) : ∀ n, xs.length < n → walk next q n (xs.headD q) = xs := by
  induction xs generalizing p with
  | nil =>
    intro n hn
    cases n with
    | zero => omega
    | succ n => simp [walk]
  | cons x xs ih =>
    intro n hn
    obtain ⟨_, hnext, hrest⟩ := h
    rw [List.mem_cons, not_or] at hq
    cases n with
    | zero => omega
    | succ n =>
      rw [List.headD_cons, walk, if_neg (Ne.symm hq.1), hnext]
      rw [ih hrest hq.2 n (by simpa using hn)]

/-- No node is threaded twice: the walk from its two places would have two lengths. -/
theorem Linked.nodup {p q : α} {xs : List α} (h : Linked next prev p xs q) (hq : q ∉ xs) :
    xs.Nodup := by
  classical
  induction xs generalizing p with
  | nil => exact List.nodup_nil
  | cons x xs ih =>
    have hrest := h.2.2
    rw [List.mem_cons, not_or] at hq
    refine List.nodup_cons.2 ⟨fun hx => ?_, ih hrest hq.2⟩
    obtain ⟨as, bs, rfl⟩ := List.append_of_mem hx
    have hin := ((linked_append x q as (x :: bs)).1 hrest).2
    have hwhole := h.walk_eq (by rw [List.mem_cons, not_or]; exact hq)
      (as.length + bs.length + 3) (by simp; omega)
    have hpart := hin.walk_eq (fun hm => hq.2 (List.mem_append_right as hm))
      (as.length + bs.length + 3) (by simp; omega)
    rw [List.headD_cons] at hwhole hpart
    have := congrArg List.length (hwhole.symm.trans hpart)
    simp at this
    omega

/-! ### Changing the list -/

/-- **Appending a node** at the end: the old last node points on to it, and it points back. -/
theorem Linked.snoc {p q x : α} {xs : List α} (h : Linked next prev p xs q)
    (hx : next' x = q) (hpx : prev' x = xs.getLastD p)
    (hlast : ∀ y ∈ xs.getLast?, next' y = x) (hn : ∀ y ∈ xs.dropLast, next' y = next y)
    (hp : ∀ y ∈ xs, prev' y = prev y) : Linked next' prev' p (xs ++ [x]) q := by
  rw [linked_append, linked_singleton]
  refine ⟨?_, hpx, hx⟩
  rcases List.eq_nil_or_concat xs with rfl | ⟨ys, y, rfl⟩
  · trivial
  · rw [List.concat_eq_append] at *
    rw [linked_append, linked_singleton] at h ⊢
    obtain ⟨h1, h2, _⟩ := h
    rw [List.dropLast_concat] at hn
    refine ⟨h1.congr hn fun z hz => hp z (List.mem_append_left _ hz), ?_, ?_⟩
    · rw [hp y (by simp), h2]
    · exact hlast y (by simp)

/-- **Dropping a node** that has neighbours on both sides or the ends `p`, `q` for neighbours: its
predecessor points past it and its successor back past it. -/
theorem Linked.remove {p q x : α} {xs ys : List α} (h : Linked next prev p (xs ++ x :: ys) q)
    (hn : ∀ y ∈ xs.getLast?, next' y = ys.headD q) (hn' : ∀ y ∈ xs.dropLast ++ ys, next' y = next y)
    (hp : ∀ y ∈ ys.head?, prev' y = xs.getLastD p) (hp' : ∀ y ∈ xs ++ ys.tail, prev' y = prev y) :
    Linked next' prev' p (xs ++ ys) q := by
  rw [linked_append] at h ⊢
  obtain ⟨h1, _, _, h3⟩ := h
  constructor
  · rcases List.eq_nil_or_concat xs with rfl | ⟨zs, z, rfl⟩
    · trivial
    · rw [List.concat_eq_append] at *
      rw [linked_append, linked_singleton] at h1 ⊢
      rw [List.dropLast_concat] at hn'
      refine ⟨h1.1.congr (fun y hy => hn' y (List.mem_append_left _ hy))
        fun y hy => hp' y (by simp [hy]), ?_, hn z (by simp)⟩
      rw [hp' z (by simp), h1.2.1]
  · cases ys with
    | nil => trivial
    | cons y ys =>
      obtain ⟨_, h4, h5⟩ := h3
      refine ⟨hp y (by simp), ?_, h5.congr (fun z hz => hn' z (by simp [hz])) fun z hz => hp' z ?_⟩
      · rw [hn' y (by simp), h4]
      · simp [hz]

/-- **Unlinking a node** by rewriting its neighbours' links, whichever they are: `p` and `q` are no
nodes of the list, so that a neighbour that is none of the list's nodes is rewritten to no effect. -/
theorem Linked.unlink [DecidableEq α] {p q t : α} {xs ys : List α}
    (h : Linked next prev p (xs ++ t :: ys) q) (hnodup : (xs ++ t :: ys).Nodup)
    (hp : p ∉ xs ++ t :: ys) (hq : q ∉ xs ++ t :: ys)
    (hn : ∀ u ∈ xs ++ ys, next' u = if u = prev t then next t else next u)
    (hv : ∀ u ∈ xs ++ ys, prev' u = if u = next t then prev t else prev u) :
    Linked next' prev' p (xs ++ ys) q := by
  have hprev : prev t = xs.getLastD p := h.prev_eq
  have hnext : next t = ys.headD q := h.next_eq
  obtain ⟨hxs, htys, hdisj⟩ := List.nodup_append.1 hnodup
  obtain ⟨_, hys⟩ := List.nodup_cons.1 htys
  have hxy : ∀ u ∈ xs, ∀ v ∈ ys, u ≠ v := fun u hu v hv => hdisj u hu v (List.mem_cons_of_mem _ hv)
  have hprev_ne : ∀ u ∈ ys, u ≠ prev t := by
    intro u hu hup
    have hxs0 : xs ≠ [] := by
      rintro rfl
      exact hp (by rw [← show u = p from hup.trans hprev]; simp [hu])
    rw [hup, hprev] at hu
    exact hxy _ (getLastD_mem hxs0) _ hu rfl
  have hnext_ne : ∀ u ∈ xs, u ≠ next t := by
    intro u hu hun
    have hys0 : ys ≠ [] := by
      rintro rfl
      exact hq (by rw [← show u = q from hun.trans hnext]; simp [hu])
    rw [hun, hnext] at hu
    exact hxy _ hu _ (headD_mem hys0) rfl
  apply h.remove
  · intro u hu
    have hlast : u = prev t := by
      rw [hprev, List.getLastD_eq_getLast?, hu]
      rfl
    rw [hn u (List.mem_append_left _ (List.mem_of_getLast? hu)), if_pos hlast, hnext]
  · intro u hu
    rcases List.mem_append.1 hu with hu | hu
    · have hux := List.mem_of_mem_dropLast hu
      rw [hn u (List.mem_append_left _ hux), if_neg]
      rintro rfl
      have hxs0 : xs ≠ [] := List.ne_nil_of_mem hux
      rw [hprev, List.getLastD_eq_getLast?, List.getLast?_eq_some_getLast hxs0] at hu
      rw [← List.dropLast_append_getLast hxs0] at hxs
      exact (List.nodup_append.1 hxs).2.2 _ hu _ List.mem_cons_self rfl
    · rw [hn u (List.mem_append_right _ hu), if_neg (hprev_ne u hu)]
  · intro u hu
    have hfirst : u = next t := by
      rw [hnext, List.headD_eq_head?_getD, hu]
      rfl
    rw [hv u (List.mem_append_right _ (List.mem_of_head? hu)), if_pos hfirst, hprev]
  · intro u hu
    rcases List.mem_append.1 hu with hu | hu
    · rw [hv u (List.mem_append_left _ hu), if_neg (hnext_ne u hu)]
    · rw [hv u (List.mem_append_right _ (List.mem_of_mem_tail hu)), if_neg]
      rintro rfl
      cases ys with
      | nil => cases hu
      | cons y ys =>
        rw [hnext] at hu
        exact (List.nodup_cons.1 hys).1 hu

/-- The same of a list from which the node is erased. -/
theorem Linked.erase [DecidableEq α] {p q t : α} {xs : List α} (h : Linked next prev p xs q)
    (hnodup : xs.Nodup) (ht : t ∈ xs) (hp : p ∉ xs) (hq : q ∉ xs)
    (hn : ∀ u ∈ xs.erase t, next' u = if u = prev t then next t else next u)
    (hv : ∀ u ∈ xs.erase t, prev' u = if u = next t then prev t else prev u) :
    Linked next' prev' p (xs.erase t) q := by
  obtain ⟨ys, zs, rfl⟩ := List.append_of_mem ht
  have hys : t ∉ ys := fun h' => (List.nodup_append.1 hnodup).2.2 t h' t List.mem_cons_self rfl
  have herase : (ys ++ t :: zs).erase t = ys ++ zs := by
    rw [List.erase_append_right _ hys, List.erase_cons_head]
  rw [herase] at hn hv ⊢
  exact h.unlink hnodup hp hq hn hv

/-- The first node of what is left: if the first one is erased it is the one that follows. -/
theorem Linked.headD_erase [DecidableEq α] {p q t : α} {xs : List α} (h : Linked next prev p xs q)
    (ht : t ∈ xs) : (xs.erase t).headD q = if xs.headD q = t then next t else xs.headD q := by
  cases xs with
  | nil => cases ht
  | cons x xs =>
    rw [List.headD_cons]
    by_cases hx : x = t
    · rw [if_pos hx, ← hx, List.erase_cons_head]
      exact h.2.1.symm
    · rw [if_neg hx, List.erase_cons_tail (by simpa using hx)]
      rfl

/-- **Pushing a node** at the front: the old first node points back to it. -/
theorem Linked.push {p q x : α} {xs : List α} (h : Linked next prev p xs q)
    (hx : next' x = xs.headD q) (hpx : prev' x = p) (hfirst : ∀ y ∈ xs.head?, prev' y = x)
    (hn : ∀ y ∈ xs, next' y = next y) (hp : ∀ y ∈ xs.tail, prev' y = prev y) :
    Linked next' prev' p (x :: xs) q := by
  refine ⟨hpx, hx, ?_⟩
  cases xs with
  | nil => trivial
  | cons y ys =>
    obtain ⟨_, h2, h3⟩ := h
    refine ⟨hfirst y (by simp), ?_, h3.congr (fun z hz => hn z (by simp [hz])) hp⟩
    rw [hn y (by simp), h2]

/-- **Inserting a node** after another. -/
theorem Linked.insert {p q x n : α} {xs ys : List α} (h : Linked next prev p (xs ++ x :: ys) q)
    (hx : next' x = n) (hn : next' n = ys.headD q) (hpn : prev' n = x) (hpx : prev' x = prev x)
    (hfirst : ∀ y ∈ ys.head?, prev' y = n) (hnext : ∀ y ∈ xs ++ ys, next' y = next y)
    (hprev : ∀ y ∈ xs ++ ys.tail, prev' y = prev y) :
    Linked next' prev' p (xs ++ x :: n :: ys) q := by
  rw [linked_append] at h ⊢
  obtain ⟨h1, h2, _, h3⟩ := h
  refine ⟨h1.congr (fun y hy => hnext y (List.mem_append_left _ hy))
    fun y hy => hprev y (List.mem_append_left _ hy), ?_, hx, ?_⟩
  · rw [hpx, h2]
  · exact h3.push hn hpn hfirst (fun y hy => hnext y (List.mem_append_right _ hy))
      fun y hy => hprev y (List.mem_append_right _ hy)

end LinkedList
