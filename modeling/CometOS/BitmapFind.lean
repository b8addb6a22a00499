import CometOS.Bitmap

/-!
# Searching a bitmap

`bitmap_entrie_find` against the entries that there are.  The outer loop goes one entry too far, and
neither loop asks where the bitmap ends: a run that starts inside may be completed by what lies behind
it, and a search that finds nothing has read the word after the last entry.

The indices that a search reads are counted by twins of its two loops.
-/

namespace CometOS

open Word32

/-! ### The entries read -/

/-- The entries that the inner loop reads from `x` on. -/
def bitmapRunReads (size value i : UInt32) (b : Bitmap) : ℕ → UInt32 → List UInt32
  | 0, _ => []
  | fuel + 1, x =>
    (i + x) ::
      if b.words (i + x) = value then
        if x + 1 ≥ size then [] else bitmapRunReads size value i b fuel (x + 1)
      else []

/-- The entries that the outer loop reads from `i` on: each is looked at once before the inner loop
starts on it. -/
def bitmapFindReads (size value : UInt32) (b : Bitmap) : ℕ → UInt32 → List UInt32
  | 0, _ => []
  | fuel + 1, i =>
    if i ≤ b.size then
      i :: (if b.words i = value then bitmapRunReads size value i b (2 ^ 32) 0 else []) ++
        if bitmapRunFrom size value i b (2 ^ 32) 0 = some true then []
        else bitmapFindReads size value b fuel (i + 1)
    else []

/-- The entries that `bitmap_entrie_find` reads. -/
def bitmapEntrieFindReads (size value : UInt32) (b : Bitmap) : List UInt32 :=
  bitmapFindReads size value b (2 ^ 32) 0

/-! ### What a search should find -/

/-- The `k` entries from `i` on are entries of the bitmap and hold `value`. -/
def RunIn (b : Bitmap) (value : UInt32) (i k : ℕ) : Prop :=
  i + k ≤ b.size.toNat ∧ ∀ x < k, b.words (UInt32.ofNat (i + x)) = value

/-- The first run of the bitmap, or `-1` if there is none. -/
inductive FirstRun (b : Bitmap) (value : UInt32) (k : ℕ) : UInt32 → Prop
  | found (i : UInt32) (hrun : RunIn b value i.toNat k)
      (hfirst : ∀ j < i.toNat, ¬ RunIn b value j k) : FirstRun b value k i
  | notFound (h : ∀ j, ¬ RunIn b value j k) : FirstRun b value k (-1)

/-- A search reads entries of the bitmap only, ends with its first run, and that run can be mapped. -/
structure FindOk (b : Bitmap) (value k : UInt32) : Prop where
  reads : ∀ i ∈ bitmapEntrieFindReads k value b, i.toNat < b.size.toNat
  result : ∃ r, bitmapEntrieFind k value b = some r ∧ FirstRun b value k.toNat r
  mapped : ∀ r, bitmapEntrieFind k value b = some r → r ≠ -1 →
    ∀ v, ∀ x < k.toNat, (bitmapMap r (r + k) v b).words (r + UInt32.ofNat x) = v

section Search

variable {b : Bitmap} {value k i : UInt32}

/-- Inside the bitmap a run is what the code takes for one. -/
theorem RunIn.runAt {n : ℕ} (h : RunIn b value i.toNat n) : RunAt b value i n := by
  intro x hx
  have hword := h.2 x hx
  rwa [UInt32.ofNat_add, UInt32.ofNat_toNat] at hword

theorem RunAt.runIn {n : ℕ} (h : RunAt b value i n) (hfit : i.toNat + n ≤ b.size.toNat) :
    RunIn b value i.toNat n := by
  refine ⟨hfit, fun x hx => ?_⟩
  rw [UInt32.ofNat_add, UInt32.ofNat_toNat]
  exact h x hx

/-- The inner loop stays within the run's length. -/
theorem mem_bitmapRunReads (fuel : ℕ) (x j : UInt32) (hx : x.toNat < max k.toNat 1)
    (hj : j ∈ bitmapRunReads k value i b fuel x) :
    ∃ y < max k.toNat 1, j = i + UInt32.ofNat y := by
  induction fuel generalizing x with
  | zero => cases hj
  | succ fuel ih =>
    rw [bitmapRunReads] at hj
    rcases List.mem_cons.1 hj with rfl | hj
    · exact ⟨x.toNat, hx, by rw [UInt32.ofNat_toNat]⟩
    · by_cases hword : b.words (i + x) = value
      · rw [if_pos hword] at hj
        by_cases hend : x + 1 ≥ k
        · rw [if_pos hend] at hj
          cases hj
        · rw [if_neg hend] at hj
          have hlt := UInt32.lt_iff_toNat_lt.1 (UInt32.not_le.1 hend)
          exact ih (x + 1) (by omega) hj
      · rw [if_neg hword] at hj
        cases hj

/-- What the loops read for an entry up to the last run's place lies inside. -/
theorem mem_inner {i₀ : ℕ} (hk : 1 ≤ k.toNat) (hi : i.toNat ≤ i₀) (hfit : i₀ + k.toNat ≤ b.size.toNat)
    {j : UInt32} (hj : j ∈ if b.words i = value then bitmapRunReads k value i b (2 ^ 32) 0 else []) :
    j.toNat < b.size.toNat := by
  have hsize := b.size.toNat_lt
  split at hj
  · obtain ⟨y, hy, rfl⟩ := mem_bitmapRunReads _ 0 j (by
      rw [show (0 : UInt32).toNat = 0 from rfl]
      omega) hj
    have hofNat : (UInt32.ofNat y).toNat = y := toNat_ofNat_of_lt (by omega)
    rw [toNat_add_of_lt (by omega), hofNat]
    omega
  · cases hj

/-- With a run ahead nothing outside is read. -/
theorem bitmapFindReads_inside {i₀ : ℕ} (hk : 1 ≤ k.toNat) (hrun : RunIn b value i₀ k.toNat)
    (fuel : ℕ) (i : UInt32) (hi : i.toNat ≤ i₀) :
    ∀ j ∈ bitmapFindReads k value b fuel i, j.toNat < b.size.toNat := by
  induction fuel generalizing i with
  | zero =>
    intro j hj
    cases hj
  | succ fuel ih =>
    intro j hj
    have hsize := b.size.toNat_lt
    have hfit := hrun.1
    have hle : i ≤ b.size := UInt32.le_iff_toNat_le.2 (by omega)
    obtain ⟨found, hfrom, hfound⟩ := bitmapRunFrom_eq k value i b
    rw [show max k.toNat 1 = k.toNat by omega] at hfound
    rw [bitmapFindReads, if_pos hle, hfrom] at hj
    rcases List.mem_append.1 hj with hj | hj
    · rcases List.mem_cons.1 hj with rfl | hj
      · omega
      · exact mem_inner hk hi hfit hj
    · cases found with
      | true =>
        rw [if_pos rfl] at hj
        cases hj
      | false =>
        rw [if_neg (show ¬ some false = some true by decide)] at hj
        have hlt : i.toNat < i₀ := by
          refine Nat.lt_of_le_of_ne hi fun heq => ?_
          rw [← heq] at hrun
          exact absurd (hfound.2 hrun.runAt) Bool.false_ne_true
        refine ih (i + 1) ?_ j hj
        rw [toNat_add_of_lt] <;> simp only [UInt32.reduceToNat] <;> omega

/-- **The search comes to the first run** and returns it. -/
theorem bitmapEntrieFind_first {i₀ : ℕ} (hk : 1 ≤ k.toNat) (hrun : RunIn b value i₀ k.toNat)
    (hfirst : ∀ j < i₀, ¬ RunIn b value j k.toNat) :
    bitmapEntrieFind k value b = some (UInt32.ofNat i₀) := by
  have hsize := b.size.toNat_lt
  have hfit := hrun.1
  have hofNat : (UInt32.ofNat i₀).toNat = i₀ := toNat_ofNat_of_lt (by omega)
  have hmax : max k.toNat 1 = k.toNat := by omega
  have hat : RunAt b value (UInt32.ofNat i₀) k.toNat := RunIn.runAt (by rwa [hofNat])
  refine bitmapEntrieFind_iff.2 ⟨?_, fun _ => by rwa [hmax]⟩
  rw [hmax]
  refine FindResult.found _ (UInt32.le_iff_toNat_le.2 (by omega)) hat fun j hj hrun' => ?_
  rw [UInt32.lt_iff_toNat_lt, hofNat] at hj
  exact hfirst j.toNat hj (hrun'.runIn (by omega))

/-- A search that gives `-1` has read the entry after the last. -/
theorem bitmapFindFrom_none (fuel : ℕ) (i : UInt32) (hi : i ≤ b.size)
    (h : bitmapFindFrom k value b fuel i = some (-1)) :
    b.size ∈ bitmapFindReads k value b fuel i := by
  induction fuel generalizing i with
  | zero => cases h
  | succ fuel ih =>
    rw [bitmapFindReads, if_pos hi]
    by_cases hlast : i = b.size
    · rw [hlast]
      exact List.mem_append_left _ List.mem_cons_self
    · have hlt : i.toNat < b.size.toNat := by
        have hne := toNat_ne hlast
        have hle := UInt32.le_iff_toNat_le.1 hi
        omega
      have hsize := b.size.toNat_lt
      have hnext : (i + 1).toNat = i.toNat + 1 :=
        toNat_add_of_lt (by
          rw [show (1 : UInt32).toNat = 1 from rfl]
          omega)
      obtain ⟨found, hfrom, -⟩ := bitmapRunFrom_eq k value i b
      rw [bitmapFindFrom, if_pos hi, hfrom, Option.bind_some] at h
      cases found with
      | true =>
        -- a run found at the place `-1` would start past the last entry
        have hminus := congrArg UInt32.toNat (Option.some.inj h)
        rw [show (-1 : UInt32).toNat = 2 ^ 32 - 1 from rfl] at hminus
        omega
      | false =>
        refine List.mem_append_right _ ?_
        rw [hfrom, if_neg (show ¬ some false = some true by decide)]
        exact ih (i + 1) (UInt32.le_iff_toNat_le.2 (by omega)) h

/-- A run that is found can be mapped. -/
theorem RunIn.mapped (h : RunIn b value i.toNat k.toNat) (v : UInt32) {x : ℕ} (hx : x < k.toNat) :
    (bitmapMap i (i + k) v b).words (i + UInt32.ofNat x) = v := by
  have hsize := b.size.toNat_lt
  have hfit := h.1
  have hofNat : (UInt32.ofNat x).toNat = x := toNat_ofNat_of_lt (by omega)
  have hend : (i + k).toNat = i.toNat + k.toNat := toNat_add_of_lt (by omega)
  have hplace : (i + UInt32.ofNat x).toNat = i.toNat + x := by
    rw [toNat_add_of_lt (by omega), hofNat]
  rw [(bitmapMap_words i (i + k) v b).2, if_pos]
  refine ⟨UInt32.le_iff_toNat_le.2 ?_, UInt32.le_iff_toNat_le.2 ?_, UInt32.lt_iff_toNat_lt.2 ?_⟩
  · omega
  · omega
  · omega

theorem findOk_of_run {i₀ : ℕ} (hk : 1 ≤ k.toNat) (h : RunIn b value i₀ k.toNat) :
    FindOk b value k := by
  classical
  have hex : ∃ i, RunIn b value i k.toNat := ⟨i₀, h⟩
  obtain ⟨first, hrun, hfirst⟩ : ∃ i, RunIn b value i k.toNat ∧ ∀ j < i, ¬ RunIn b value j k.toNat :=
    ⟨Nat.find hex, Nat.find_spec hex, fun _ => Nat.find_min hex⟩
  have hsize := b.size.toNat_lt
  have hofNat : (UInt32.ofNat first).toNat = first := by
    have hfit := hrun.1
    exact toNat_ofNat_of_lt (by omega)
  have hresult := bitmapEntrieFind_first hk hrun hfirst
  have hreads := bitmapFindReads_inside hk hrun (2 ^ 32) 0 (Nat.zero_le _)
  refine ⟨hreads, ⟨_, hresult, FirstRun.found _ ?_ ?_⟩, fun r hr _ v x hx => ?_⟩
  · rwa [hofNat]
  · rwa [hofNat]
  · obtain rfl := Option.some.inj (hresult.symm.trans hr)
    exact RunIn.mapped (by rwa [hofNat]) v hx

/-- A search with nothing to find reads past the end, or never ends, or finds what is not there. -/
theorem FindOk.exists_run (h : FindOk b value k) : ∃ i, RunIn b value i k.toNat := by
  obtain ⟨r, hr, hfirst⟩ := h.result
  cases hfirst with
  | found _ hrun _ => exact ⟨r.toNat, hrun⟩
  | notFound _ =>
    have hread := bitmapFindFrom_none (2 ^ 32) 0
      (UInt32.le_iff_toNat_le.2 (Nat.zero_le _)) hr
    exact absurd (h.reads b.size hread) (lt_irrefl _)

end Search

/-- **Searching a bitmap.**  For every bitmap, run length and value the search is as it should be
exactly when there is a run to find. -/
theorem bitmap_find_iff (b : Bitmap) (value k : UInt32) (hk : 1 ≤ k) :
    FindOk b value k ↔ ∃ i, RunIn b value i k.toNat := by
  constructor
  · intro h
    exact h.exists_run
  · rintro ⟨i, h⟩
    exact findOk_of_run (UInt32.le_iff_toNat_le.1 hk) h

/-- A bitmap of one entry, which is used, before a word that is 0. -/
def bitmapOne : Bitmap where
  addr := 0
  entries := 16
  size := 1
  words := fun i => if i = 0 then 1 else 0

theorem bitmap_find_used : FindOk bitmapOne 1 1 ↔ ∃ i, RunIn bitmapOne 1 i (1 : UInt32).toNat :=
  bitmap_find_iff bitmapOne 1 1 (by decide)

/-- **A full bitmap**: the search for a free entry goes on to the word behind it, which is free. -/
theorem bitmap_find_behind : bitmapEntrieFind 1 0 bitmapOne = some 1 ∧ ¬ FindOk bitmapOne 0 1 := by
  refine ⟨by decide, fun h => ?_⟩
  obtain ⟨i, hfit, hrun⟩ := h.exists_run
  have hfit' : i + 1 ≤ 1 := hfit
  obtain rfl : i = 0 := by omega
  exact absurd (hrun 0 (by decide)) (by decide)

end CometOS
