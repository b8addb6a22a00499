import CometOS.Computer

/-!
# A bitmap in memory

`BitmapAt p mem b` says that the `bitmap_t` at `p.addr` holds the bitmap `b`: as many of its words as `p`
counts, which may be fewer than its `size` says.  While a call keeps to those words it does to memory what
the functions of `Bitmap` do to `b`.
-/

namespace CometOS

open ByteMemory Loop Paged Word32

/-- Where a `bitmap_t` and the words that belong to it lie. -/
structure BitmapPlace where
  addr : UInt32
  entries : UInt32
  count : ℕ
  header : addr.toNat + 8 ≤ entries.toNat
  words : entries.toNat + 4 * count < 2 ^ 32

namespace BitmapPlace

variable (p : BitmapPlace)

def stop : ℕ := p.entries.toNat + 4 * p.count

/-- The `n` bytes at `a` are in the `bitmap_t` or among its words. -/
def Within (a : UInt32) (n : ℕ) : Prop :=
  p.addr.toNat ≤ a.toNat ∧ a.toNat + n ≤ p.addr.toNat + 8 ∨
    p.entries.toNat ≤ a.toNat ∧ a.toNat + n ≤ p.stop

/-- The `n` bytes at `a` are none of the bitmap's. -/
def Outside (a : UInt32) (n : ℕ) : Prop :=
  a.toNat + n ≤ p.addr.toNat ∨ p.addr.toNat + 8 ≤ a.toNat ∧ a.toNat + n ≤ p.entries.toNat ∨
    p.stop ≤ a.toNat ∧ a.toNat + n ≤ 2 ^ 32

/-- The bitmap's bytes are found at their own addresses, whatever they hold. -/
def Seen (c : Computer) : Prop :=
  ∀ mem : Mem, (∀ a, p.Outside a 1 → mem a = c.mem a) →
    Direct (Computer.walk { c with mem }) p.addr (p.stop - p.addr.toNat)

variable {p}

theorem entry_toNat {i : UInt32} (hi : i.toNat < p.count) :
    (p.entries + 4 * i).toNat = p.entries.toNat + 4 * i.toNat := by
  have hw := p.words
  have h4 : (4 * i).toNat = 4 * i.toNat := toNat_mul_of_lt (by simp only [UInt32.reduceToNat]; omega)
  rw [toNat_add_of_lt (by rw [h4]; omega), h4]

theorem size_toNat : (p.addr + 4).toNat = p.addr.toNat + 4 := by
  have hh := p.header
  have hw := p.words
  exact toNat_add_of_lt (by simp only [UInt32.reduceToNat]; omega)

theorem stop_eq : p.stop = p.entries.toNat + 4 * p.count := rfl

theorem within_addr : p.Within p.addr 4 := Or.inl ⟨le_rfl, by omega⟩

theorem within_size : p.Within (p.addr + 4) 4 := by
  have hs := size_toNat (p := p)
  exact Or.inl ⟨by omega, by omega⟩

theorem within_entry {i : UInt32} (hi : i.toNat < p.count) : p.Within (p.entries + 4 * i) 4 := by
  have hi' := entry_toNat hi
  have hstop := stop_eq (p := p)
  exact Or.inr ⟨by omega, by omega⟩

/-- What is outside is apart from each part of the bitmap. -/
theorem Outside.apart {a b : UInt32} {n k : ℕ} (h : p.Outside a n) (hn : 0 < n) (hk : 0 < k)
    (hb : p.Within b k) : Apart a n b k := by
  have hw := p.words
  have hh := p.header
  have hstop := stop_eq (p := p)
  have hab : a.toNat + n ≤ b.toNat ∨ b.toNat + k ≤ a.toNat ∧ a.toNat + n ≤ 2 ^ 32 := by
    unfold Outside Within at *
    omega
  have hbk : b.toNat + k ≤ 2 ^ 32 := by
    unfold Within at hb
    omega
  rcases hab with hlt | ⟨hge, hle⟩
  · exact apart_of_le hn hlt hbk
  · exact (apart_of_le hk hge hle).symm

theorem Outside.part {a b : UInt32} {n k : ℕ} (h : p.Outside a n) (ha : a.toNat ≤ b.toNat)
    (hk : b.toNat + k ≤ a.toNat + n) : p.Outside b k := by
  unfold Outside at *
  omega

/-- A store of the bitmap's own word leaves what is outside. -/
theorem write_outside {mem : Mem} {a : UInt32} (v : UInt32) (ha : p.Within a 4) {x : UInt32}
    (hx : p.Outside x 1) : write32 mem a v x = mem x :=
  write32_of_far mem a v (hx.apart Nat.one_pos (by decide) ha).2

/-- What is outside is none of the words. -/
theorem Outside.beyond {a : UInt32} (h : p.Outside a 1) :
    a.toNat < p.entries.toNat ∨ p.stop ≤ a.toNat := by
  have hh := p.header
  unfold Outside at h
  omega

theorem write_beyond {mem : Mem} {i : UInt32} (hi : i.toNat < p.count) (v : UInt32) {x : UInt32}
    (hx : x.toNat < p.entries.toNat ∨ p.stop ≤ x.toNat) :
    write32 mem (p.entries + 4 * i) v x = mem x := by
  have hw := p.words
  have hi' := entry_toNat hi
  have hstop := stop_eq (p := p)
  exact write32_of_far mem _ v (far_of_outside (by omega) (by omega))

theorem Seen.congr {c : Computer} (h : p.Seen c) {mem : Mem}
    (hmem : ∀ a, p.Outside a 1 → mem a = c.mem a) : p.Seen { c with mem } :=
  fun mem' hmem' => h mem' fun x hx => (hmem' x hx).trans (hmem x hx)

theorem Seen.direct {c : Computer} (h : p.Seen c) {a : UInt32} {n : ℕ} (ha : p.Within a n) :
    Direct c.walk a n := by
  have hh := p.header
  have hstop := stop_eq (p := p)
  have hle : p.addr.toNat ≤ a.toNat ∧ a.toNat + n ≤ p.stop := by
    unfold Within at ha
    omega
  refine (h c.mem fun _ _ => rfl).part ?_
  rw [toNat_sub_of_le hle.1]
  omega

theorem Seen.load_size {c : Computer} (h : p.Seen c) :
    c.load32 (p.addr + 4) = some (read32 c.mem (p.addr + 4)) :=
  load32_direct _ (h.direct within_size)

end BitmapPlace

/-- The bitmap in memory, as far as its words go. -/
structure BitmapAt (p : BitmapPlace) (mem : Mem) (b : Bitmap) : Prop where
  entries_eq : read32 mem p.addr = p.entries
  size_le : b.size ≤ read32 mem (p.addr + 4)
  count_eq : b.size.toNat = p.count
  words_eq : ∀ i : UInt32, i.toNat < p.count → read32 mem (p.entries + 4 * i) = b.words i

section

variable {p : BitmapPlace} {c : Computer} {b : Bitmap} {size value : UInt32}

theorem BitmapAt.congr {mem mem' : Mem} (h : BitmapAt p mem b)
    (hmem : ∀ a : UInt32, p.Within a 1 → mem' a = mem a) : BitmapAt p mem' b := by
  have hw := p.words
  have hh := p.header
  have hstop := p.stop_eq
  have hread : ∀ a : UInt32, p.Within a 4 → read32 mem' a = read32 mem a := by
    intro a ha
    have hle : a.toNat + 4 ≤ 2 ^ 32 := by
      unfold BitmapPlace.Within at ha
      omega
    refine read32_congr fun i hi => hmem _ ?_
    have hai : (a + i).toNat = a.toNat + i.toNat := toNat_add_of_lt (by omega)
    unfold BitmapPlace.Within at *
    omega
  refine ⟨?_, ?_, h.count_eq, fun i hi => ?_⟩
  · rw [hread _ p.within_addr, h.entries_eq]
  · rw [hread _ p.within_size]
    exact h.size_le
  · rw [hread _ (p.within_entry hi), h.words_eq i hi]

theorem BitmapAt.write {mem : Mem} (h : BitmapAt p mem b) {a : UInt32} {n : ℕ} {mem' : Mem}
    (ha : p.Outside a n) (hn : 0 < n) (hmem : ∀ x : UInt32, n ≤ (x - a).toNat → mem' x = mem x) :
    BitmapAt p mem' b :=
  h.congr fun x hx => hmem x (ha.apart hn Nat.one_pos hx).1

/-- Setting one of its words. -/
theorem BitmapAt.set {mem : Mem} (h : BitmapAt p mem b) {i : UInt32} (hi : i.toNat < p.count)
    (v : UInt32) :
    BitmapAt p (write32 mem (p.entries + 4 * i) v) (bitmapEntrieSet i v b) := by
  have hw := p.words
  have hh := p.header
  have hi' := p.entry_toNat hi
  have hsize := p.size_toNat
  refine ⟨?_, ?_, h.count_eq, fun j hj => ?_⟩
  · rw [read32_write32_of_apart _ _ (apart_of_le (by decide) (by omega) (by omega)).symm, h.entries_eq]
  · rw [read32_write32_of_apart _ _ (apart_of_le (by decide) (by omega) (by omega)).symm]
    exact h.size_le
  · have hj' := p.entry_toNat hj
    rw [bitmapEntrieSet_words]
    split
    · rename_i hji
      rw [hji, read32_write32_same]
    · rename_i hji
      have hne := toNat_ne hji
      rw [read32_write32_of_apart, h.words_eq j hj]
      rcases Nat.lt_or_gt_of_ne hne with hlt | hgt
      · exact (apart_of_le (by decide) (by omega) (by omega)).symm
      · exact apart_of_le (by decide) (by omega) (by omega)

/-- A search comes out no earlier than it starts. -/
theorem bitmapFindFrom_ge {addr r : UInt32} :
    ∀ (fuel : ℕ) (i : UInt32), i.toNat + fuel ≤ 2 ^ 32 →
      c.bitmapFindFrom size value addr fuel i = some r → r = -1 ∨ i ≤ r := by
  intro fuel
  induction fuel with
  | zero => intro i _ h; cases h
  | succ fuel ih =>
    intro i hi h
    rw [Computer.bitmapFindFrom] at h
    obtain ⟨count, -, h⟩ := Option.bind_eq_some_iff.1 h
    split at h
    · obtain ⟨found, -, h⟩ := Option.bind_eq_some_iff.1 h
      split at h
      · obtain rfl := Option.some.inj h
        exact Or.inr (UInt32.le_refl _)
      · have hi1 : (i + 1).toNat = i.toNat + 1 ∨ fuel = 0 := by
          rw [UInt32.toNat_add]
          simp only [UInt32.reduceToNat]
          omega
        rcases hi1 with hi1 | rfl
        · refine (ih (i + 1) (by omega) h).imp id fun hle => ?_
          rw [UInt32.le_iff_toNat_le] at hle ⊢
          omega
        · cases h
    · exact Or.inl (Option.some.inj h).symm

variable (h : BitmapAt p c.mem b) (hseen : p.Seen c)

include h hseen

theorem BitmapAt.load_entries : c.load32 p.addr = some p.entries := by
  rw [Computer.load32, load32_direct _ (hseen.direct p.within_addr), h.entries_eq]

theorem BitmapAt.check {i : UInt32} (hi : i.toNat < p.count) :
    c.bitmapEntrieCheck i p.addr = some (b.words i) := by
  rw [Computer.bitmapEntrieCheck, h.load_entries hseen, Option.bind_some, Computer.load32,
    load32_direct _ (hseen.direct (p.within_entry hi)), h.words_eq i hi]

theorem BitmapAt.store {i : UInt32} (hi : i.toNat < p.count) (v : UInt32) :
    c.bitmapEntrieSet i v p.addr = some { c with mem := write32 c.mem (p.entries + 4 * i) v } := by
  rw [Computer.bitmapEntrieSet, h.load_entries hseen, Option.bind_some, Computer.store32,
    store32_direct _ _ (hseen.direct (p.within_entry hi))]
  rfl

/-- The inner loop, while it keeps to the words. -/
theorem BitmapAt.runFrom {i : UInt32} (hi : i.toNat + max size.toNat 1 ≤ p.count) :
    ∀ (fuel : ℕ) (x : UInt32), x.toNat < max size.toNat 1 →
      c.bitmapRunFrom size value i p.addr fuel x = bitmapRunFrom size value i b fuel x := by
  intro fuel
  induction fuel with
  | zero => exact fun _ _ => rfl
  | succ fuel ih =>
    intro x hx
    have hw := p.words
    have hix : (i + x).toNat = i.toNat + x.toNat := toNat_add_of_lt (by omega)
    rw [Computer.bitmapRunFrom, h.check hseen (by omega), Option.bind_some, bitmapRunFrom]
    split
    · split
      · rfl
      · rename_i hlt
        have hlt' : (x + 1).toNat < size.toNat := UInt32.lt_iff_toNat_lt.1 (UInt32.not_le.1 hlt)
        exact ih (x + 1) (by omega)
    · rfl

theorem BitmapAt.run (size value i : UInt32) (hi : i.toNat + max size.toNat 1 ≤ p.count) :
    ∃ found, c.bitmapRunFrom size value i p.addr (2 ^ 32) 0 = some found ∧
      (found = true ↔ RunAt b value i (max size.toNat 1)) := by
  rw [h.runFrom hseen hi (2 ^ 32) 0 (by rw [UInt32.toNat_zero]; omega)]
  exact bitmapRunFrom_eq size value i b

/-- A run among the words is come to. -/
theorem BitmapAt.findFrom {r : UInt32} (hr : r.toNat + max size.toNat 1 ≤ p.count)
    (hrun : RunAt b value r (max size.toNat 1))
    (hfirst : ∀ j < r, ¬ RunAt b value j (max size.toNat 1)) :
    ∀ (fuel : ℕ) (i : UInt32), i ≤ r → r.toNat - i.toNat < fuel →
      c.bitmapFindFrom size value p.addr fuel i = some r := by
  intro fuel
  induction fuel with
  | zero => intro i _ hf; omega
  | succ fuel ih =>
    intro i hi hf
    have hsize := UInt32.le_iff_toNat_le.1 h.size_le
    have hcount := h.count_eq
    have hi' := UInt32.le_iff_toNat_le.1 hi
    obtain ⟨found, hfrom, hiff⟩ := h.run hseen size value i (by omega)
    rw [Computer.bitmapFindFrom, hseen.load_size, Option.bind_some,
      if_pos (UInt32.le_iff_toNat_le.2 (by omega)), hfrom, Option.bind_some]
    rcases Nat.lt_or_eq_of_le hi' with hlt | heq
    · have hno := hfirst i (UInt32.lt_iff_toNat_lt.2 hlt)
      have hlast := r.toNat_lt
      have hi1 : (i + 1).toNat = i.toNat + 1 :=
        toNat_add_of_lt (by simp only [UInt32.reduceToNat]; omega)
      rw [if_neg fun htrue => hno (hiff.1 htrue)]
      exact ih (i + 1) (UInt32.le_iff_toNat_le.2 (by omega)) (by omega)
    · obtain rfl := eq_of_toNat heq
      rw [if_pos (hiff.2 hrun)]

/-- **Searching**: a run that the words hold is found in memory. -/
theorem BitmapAt.find {r : UInt32} (hr : r.toNat + max size.toNat 1 ≤ p.count)
    (hfind : FindResult b value (max size.toNat 1) r) :
    c.bitmapEntrieFind size value p.addr = some r := by
  have hw := p.words
  have hlt := r.toNat_lt
  cases hfind with
  | found _ _ hrun hfirst =>
    exact h.findFrom hseen hr hrun hfirst (2 ^ 32) 0 (UInt32.le_iff_toNat_le.2 (Nat.zero_le _)) (by omega)
  | notFound hno =>
    rw [show (-1 : UInt32).toNat = 2 ^ 32 - 1 from rfl] at hr
    omega

theorem BitmapAt.findFrom_run {r : UInt32} (hr : r.toNat + max size.toNat 1 ≤ p.count) :
    ∀ (fuel : ℕ) (i : UInt32), i.toNat + fuel ≤ 2 ^ 32 →
      (∀ j < i, ¬ RunAt b value j (max size.toNat 1)) →
      c.bitmapFindFrom size value p.addr fuel i = some r →
      RunAt b value r (max size.toNat 1) ∧ ∀ j < r, ¬ RunAt b value j (max size.toNat 1) := by
  have hw := p.words
  have hne : r ≠ -1 := by
    rintro rfl
    rw [show (-1 : UInt32).toNat = 2 ^ 32 - 1 from rfl] at hr
    omega
  intro fuel
  induction fuel with
  | zero => intro i _ _ hfind; cases hfind
  | succ fuel ih =>
    intro i hi hbefore hfind
    have hle := (bitmapFindFrom_ge (fuel + 1) i hi hfind).resolve_left hne
    rw [UInt32.le_iff_toNat_le] at hle
    obtain ⟨found, hfrom, hiff⟩ := h.run hseen size value i (by omega)
    rw [Computer.bitmapFindFrom, hseen.load_size, Option.bind_some] at hfind
    split at hfind
    · rw [hfrom, Option.bind_some] at hfind
      cases found with
      | true =>
        obtain rfl := Option.some.inj hfind
        exact ⟨hiff.1 rfl, hbefore⟩
      | false =>
        have hi1 : (i + 1).toNat = i.toNat + 1 :=
          toNat_add_of_lt (by simp only [UInt32.reduceToNat]; omega)
        refine ih (i + 1) (by omega) (fun j hj hrun => ?_) hfind
        by_cases hji : j = i
        · rw [hji] at hrun
          exact Bool.false_ne_true (hiff.2 hrun)
        · refine hbefore j ?_ hrun
          have hne' := toNat_ne hji
          rw [UInt32.lt_iff_toNat_lt] at hj ⊢
          omega
    · exact absurd (Option.some.inj hfind).symm hne

/-- And what is found in memory, among the words, is the first run that they hold. -/
theorem BitmapAt.findResult {r : UInt32} (hr : r.toNat + max size.toNat 1 ≤ p.count)
    (hfind : c.bitmapEntrieFind size value p.addr = some r) :
    FindResult b value (max size.toNat 1) r := by
  obtain ⟨hrun, hfirst⟩ := h.findFrom_run hseen hr (2 ^ 32) 0 (by rw [UInt32.toNat_zero]; omega)
    (fun j hj => absurd hj UInt32.not_lt_zero) hfind
  exact FindResult.found r (UInt32.le_iff_toNat_le.2 (by rw [h.count_eq]; omega)) hrun hfirst

/-- **Mapping** a range of its words. -/
theorem BitmapAt.map (start : UInt32) {stop : UInt32} (hstop : stop.toNat ≤ p.count) (v : UInt32) :
    ∃ mem, c.bitmapMap start stop v p.addr = some { c with mem } ∧
      BitmapAt p mem (bitmapMap start stop v b) ∧
      ∀ a : UInt32, a.toNat < p.entries.toNat ∨ p.stop ≤ a.toNat → mem a = c.mem a := by
  have hsize := UInt32.le_iff_toNat_le.1 h.size_le
  have hcount := h.count_eq
  have hh := p.header
  have hlast := stop.toNat_lt
  have hle : ¬ stop > b.size := by
    rw [gt_iff_lt, UInt32.lt_iff_toNat_lt]
    omega
  rw [Computer.bitmapMap, hseen.load_size, Option.bind_some,
    if_neg (by rw [gt_iff_lt, UInt32.lt_iff_toNat_lt]; omega), bitmapMap, if_neg hle]
  obtain ⟨c', hc', mem, rfl, hat, hout⟩ := forUpM_sim
    (fun (c' : Computer) b' => ∃ mem, c' = { c with mem } ∧ BitmapAt p mem b' ∧
      ∀ a : UInt32, a.toNat < p.entries.toNat ∨ p.stop ≤ a.toNat → mem a = c.mem a)
    (g := fun i c' => c'.bitmapEntrieSet (UInt32.ofNat i) v p.addr)
    (f := fun i b' => bitmapEntrieSet (UInt32.ofNat i) v b') (stop.toNat - start.toNat) start.toNat c b
    ⟨c.mem, rfl, h, fun _ _ => rfl⟩ (by
      rintro i c' b' hlo hhi ⟨mem, rfl, hat, hout⟩
      have hin : (UInt32.ofNat i).toNat < p.count := by
        rw [toNat_ofNat_of_lt (by omega)]
        omega
      refine ⟨_, hat.store (c := { c with mem }) (hseen.congr fun a ha => hout a ha.beyond) hin v, _, rfl,
        hat.set hin v, fun a ha => ?_⟩
      exact (BitmapPlace.write_beyond hin v ha).trans (hout a ha))
  exact ⟨mem, hc', hat, hout⟩

end

end CometOS
