import Mathlib.Tactic

/-!
# Tiling an interval

`Tiles addr size b xs e` says that the blocks `xs`, in order, fill the interval from `b` to `e`: each
starts where the one before it ends, and none is empty.  Splitting a block in two and melting two
neighbours into one are the operations; blocks of one tiling never overlap.
-/

namespace Tiling

variable {α : Type*} {addr size size' : α → ℕ}

/-- The blocks fill `[b, e)`, in order. -/
def Tiles (addr size : α → ℕ) : ℕ → List α → ℕ → Prop
  | b, [], e => b = e
  | b, x :: xs, e => addr x = b ∧ 0 < size x ∧ Tiles addr size (b + size x) xs e

theorem tiles_cons (b e : ℕ) (x : α) (xs : List α) :
    Tiles addr size b (x :: xs) e ↔
      addr x = b ∧ 0 < size x ∧ Tiles addr size (b + size x) xs e := Iff.rfl

theorem Tiles.le {b e : ℕ} {xs : List α} (h : Tiles addr size b xs e) : b ≤ e := by
  induction xs generalizing b with
  | nil => exact Nat.le_of_eq h
  | cons x xs ih =>
    have := ih h.2.2
    omega

/-- Only the sizes of the listed blocks matter. -/
theorem Tiles.congr {b e : ℕ} {xs : List α} (h : Tiles addr size b xs e)
    (hs : ∀ x ∈ xs, size' x = size x) : Tiles addr size' b xs e := by
  induction xs generalizing b with
  | nil => exact h
  | cons x xs ih =>
    obtain ⟨h1, h2, h3⟩ := h
    rw [tiles_cons, hs x List.mem_cons_self]
    exact ⟨h1, h2, ih h3 fun y hy => hs y (List.mem_cons_of_mem x hy)⟩

/-- A tiling cut in two, at some point between the ends. -/
theorem tiles_append {b e : ℕ} {xs ys : List α} :
    Tiles addr size b (xs ++ ys) e ↔
      ∃ c, Tiles addr size b xs c ∧ Tiles addr size c ys e := by
  induction xs generalizing b with
  | nil =>
    constructor
    · intro h
      exact ⟨b, rfl, h⟩
    · rintro ⟨c, rfl, h⟩
      exact h
  | cons x xs ih =>
    rw [List.cons_append, tiles_cons, ih]
    constructor
    · rintro ⟨h1, h2, c, h3, h4⟩
      exact ⟨c, ⟨h1, h2, h3⟩, h4⟩
    · rintro ⟨c, ⟨h1, h2, h3⟩, h4⟩
      exact ⟨h1, h2, c, h3, h4⟩

/-- A block lies inside the interval. -/
theorem Tiles.bounds {b e : ℕ} {xs : List α} (h : Tiles addr size b xs e) {x : α} (hx : x ∈ xs) :
    b ≤ addr x ∧ 0 < size x ∧ addr x + size x ≤ e := by
  induction xs generalizing b with
  | nil => cases hx
  | cons y ys ih =>
    obtain ⟨h1, h2, h3⟩ := h
    have hle := h3.le
    rcases List.mem_cons.1 hx with rfl | hx
    · omega
    · have := ih h3 hx
      omega

/-- Different blocks of one tiling do not overlap. -/
theorem Tiles.disjoint {b e : ℕ} {xs : List α} (h : Tiles addr size b xs e) {x y : α} (hx : x ∈ xs)
    (hy : y ∈ xs) (hne : x ≠ y) : addr x + size x ≤ addr y ∨ addr y + size y ≤ addr x := by
  induction xs generalizing b with
  | nil => cases hx
  | cons z zs ih =>
    obtain ⟨h1, h2, h3⟩ := h
    rcases List.mem_cons.1 hx with rfl | hx'
    · rcases List.mem_cons.1 hy with rfl | hy'
      · exact absurd rfl hne
      · left
        have := (h3.bounds hy').1
        omega
    · rcases List.mem_cons.1 hy with rfl | hy'
      · right
        have := (h3.bounds hx').1
        omega
      · exact ih h3 hx' hy'

theorem Tiles.nodup {b e : ℕ} {xs : List α} (h : Tiles addr size b xs e) : xs.Nodup := by
  induction xs generalizing b with
  | nil => exact List.nodup_nil
  | cons x xs ih =>
    obtain ⟨h1, h2, h3⟩ := h
    refine List.nodup_cons.2 ⟨fun hx => ?_, ih h3⟩
    have := (h3.bounds hx).1
    omega

/-- **Splitting** a block: the new block takes what the old one gives up. -/
theorem Tiles.split {b e : ℕ} {xs ys : List α} {x n : α} (h : Tiles addr size b (xs ++ x :: ys) e)
    (hx : 0 < size' x) (hn : 0 < size' n) (haddr : addr n = addr x + size' x)
    (hsum : size' x + size' n = size x) (hs : ∀ y ∈ xs ++ ys, size' y = size y) :
    Tiles addr size' b (xs ++ x :: n :: ys) e := by
  obtain ⟨c, h1, h2, h3, h4⟩ := tiles_append.1 h
  refine tiles_append.2 ⟨c, h1.congr fun y hy => hs y (List.mem_append_left _ hy), h2, hx, ?_, hn, ?_⟩
  · rw [haddr, h2]
  · rw [Nat.add_assoc, hsum]
    exact h4.congr fun y hy => hs y (List.mem_append_right _ hy)

/-- **Melting** a block into the one on its left. -/
theorem Tiles.melt {b e : ℕ} {xs ys : List α} {x n : α}
    (h : Tiles addr size b (xs ++ x :: n :: ys) e) (hsum : size' x = size x + size n)
    (hs : ∀ y ∈ xs ++ ys, size' y = size y) : Tiles addr size' b (xs ++ x :: ys) e := by
  obtain ⟨c, h1, h2, h3, h4, h5, h6⟩ := tiles_append.1 h
  refine tiles_append.2 ⟨c, h1.congr fun y hy => hs y (List.mem_append_left _ hy), h2, by omega, ?_⟩
  rw [hsum, ← Nat.add_assoc]
  exact h6.congr fun y hy => hs y (List.mem_append_right _ hy)

/-- One block fills the interval. -/
theorem tiles_singleton {b e : ℕ} {x : α} :
    Tiles addr size b [x] e ↔ addr x = b ∧ 0 < size x ∧ b + size x = e := Iff.rfl

end Tiling
