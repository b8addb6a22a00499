import CometOS.Lib.ByteMemory

/-!
# Records in memory

A record is the address it starts at; its fields are four-byte words at fixed offsets.  A `Layout`
carries the proof that its fields lie inside the record and do not overlap, so that a store to one
field of one record is seen by a load exactly when field and record are the same, as long as
different records are apart (`Separated`).
-/

namespace Record

open ByteMemory Word32

/-- Where the fields of a record of `size` bytes are. -/
structure Layout (φ : Type*) where
  offset : φ → UInt32
  size : ℕ
  inside : ∀ f, (offset f).toNat + 4 ≤ size
  apart : ∀ f g, f ≠ g → Apart (offset f) 4 (offset g) 4

variable {φ : Type*} (L : Layout φ)

def Layout.get (m : Mem) (a : UInt32) (f : φ) : UInt32 := read32 m (a + L.offset f)

def Layout.set (m : Mem) (a : UInt32) (f : φ) (v : UInt32) : Mem := write32 m (a + L.offset f) v

/-- Two blocks inside two others that are apart are apart. -/
theorem apart_inside {a b i j : UInt32} {n k n' k' : ℕ} (h : Apart a n b k) (hn : 0 < n')
    (hk : 0 < k') (hi : i.toNat + n' ≤ n) (hj : j.toNat + k' ≤ k) :
    Apart (a + i) n' (b + j) k' := by
  obtain ⟨h1, h2⟩ := h
  have ha := a.toNat_lt
  have hb := b.toNat_lt
  have hi' := i.toNat_lt
  have hj' := j.toNat_lt
  constructor
  · simp only [UInt32.toNat_sub, UInt32.toNat_add] at *
    omega
  · simp only [UInt32.toNat_sub, UInt32.toNat_add] at *
    omega

/-- **Store, then load**, on one record or two that are apart. -/
theorem Layout.get_set [DecidableEq φ] (m : Mem) {a b : UInt32} (f g : φ) (v : UInt32)
    (h : b ≠ a → Apart a L.size b L.size) :
    L.get (L.set m a f v) b g = if b = a ∧ g = f then v else L.get m b g := by
  rw [Layout.get, Layout.set]
  by_cases hb : b = a
  · subst hb
    by_cases hg : g = f
    · rw [if_pos ⟨rfl, hg⟩, hg, read32_write32_same]
    · rw [if_neg fun hc => hg hc.2]
      exact read32_write32_of_apart m v ((apart_add b).2 (L.apart f g fun e => hg e.symm))
  · rw [if_neg fun hc => hb hc.1]
    exact read32_write32_of_apart m v 
      (apart_inside (h hb) (by decide) (by decide) (L.inside f) (L.inside g))

/-- A record whose bytes stay. -/
theorem Layout.get_congr {m m' : Mem} {a : UInt32}
    (h : ∀ x : UInt32, (x - a).toNat < L.size → m' x = m x) (f : φ) : L.get m' a f = L.get m a f := by
  apply read32_congr
  intro i hi
  apply h
  have hin := L.inside f
  have hlt := (L.offset f + i).toNat_lt
  rw [show a + L.offset f + i - a = L.offset f + i by grind, UInt32.toNat_add]
  omega

/-- A byte stored outside a record. -/
theorem Layout.get_update (m : Mem) {a x : UInt32} (v : UInt8) (h : L.size ≤ (x - a).toNat) (f : φ) :
    L.get (Function.update m x v) a f = L.get m a f := by
  refine L.get_congr (fun y hy => Function.update_of_ne ?_ _ _) f
  rintro rfl
  omega

/-- A byte outside the record a field of which is stored. -/
theorem Layout.set_of_far (m : Mem) {a x : UInt32} (f : φ) (v : UInt32)
    (h : L.size ≤ (x - a).toNat) : L.set m a f v x = m x := by
  apply write32_of_far
  have hin := L.inside f
  rw [show x - (a + L.offset f) = x - a - L.offset f by grind, toNat_sub_of_le (by omega)]
  omega

/-- The records of `T` are apart from one another, and none is at address 0. -/
structure Layout.Separated (T : UInt32 → Prop) : Prop where
  zero : ¬ T 0
  apart : ∀ a b, T a → T b → b ≠ a → Apart a L.size b L.size

variable {L}

theorem Layout.Separated.ne_zero {T : UInt32 → Prop} (h : L.Separated T) {a : UInt32} (ha : T a) :
    a ≠ 0 := by
  rintro rfl
  exact h.zero ha

/-- One more record, apart from those there are. -/
theorem Layout.Separated.insert {T : UInt32 → Prop} (h : L.Separated T) {x : UInt32} (hx : x ≠ 0)
    (hap : ∀ a, T a → Apart a L.size x L.size) : L.Separated fun u => T u ∨ u = x := by
  constructor
  · rintro (h0 | h0)
    · exact h.zero h0
    · exact hx h0.symm
  · rintro a b (ha | rfl) (hb | rfl) hne
    · exact h.apart a b ha hb hne
    · exact hap a ha
    · exact (hap b hb).symm
    · exact absurd rfl hne

/-- A store to one of the records. -/
theorem Layout.Separated.get_set [DecidableEq φ] {T : UInt32 → Prop} (h : L.Separated T) (m : Mem)
    {a b : UInt32} (ha : T a) (hb : T b) (f g : φ) (v : UInt32) :
    L.get (L.set m a f v) b g = if b = a ∧ g = f then v else L.get m b g :=
  L.get_set m f g v (h.apart a b ha hb)

/-- A store to one of the records if the pointer to it is not null. -/
theorem Layout.Separated.get_set_if [DecidableEq φ] {T : UInt32 → Prop} (h : L.Separated T)
    (m : Mem) {a b : UInt32} (ha : a ≠ 0 → T a) (hb : T b) (f g : φ) (v : UInt32) :
    L.get (if a ≠ 0 then L.set m a f v else m) b g =
      if b = a ∧ g = f then v else L.get m b g := by
  by_cases h0 : a = 0
  · rw [if_neg (not_not.2 h0), if_neg]
    rintro ⟨rfl, _⟩
    exact h.zero (h0 ▸ hb)
  · rw [if_pos h0]
    exact h.get_set m (ha h0) hb f g v

end Record
