import CometOS.PageMap

/-!
# The tables that `paging_initialize` leaves

With room for them, the directory and the tables come to lie in the frames behind the pages below
`kernel_pointer`, one after the other.  Each table starts as the map of the lowest 4 MiB onto
themselves, whatever region it is for, and the loop over the pages then rewrites the words of the
pages below `kernel_pointer`.
-/

namespace CometOS

open ByteMemory Loop Word32

/-! ### Pages by number -/

def pageAddr (i : ℕ) : UInt32 := UInt32.ofNat (i * 0x1000)

theorem pageAddr_toNat {i : ℕ} (hi : i < 2 ^ 20) : (pageAddr i).toNat = i * 0x1000 :=
  toNat_ofNat_of_lt (by omega)

theorem pageAddr_aligned {i : ℕ} (hi : i < 2 ^ 20) : PageAligned (pageAddr i) := by
  rw [pageAligned_iff, pageAddr_toNat hi]
  omega

theorem pageAddr_inj {i j : ℕ} (hi : i < 2 ^ 20) (hj : j < 2 ^ 20) (h : pageAddr i = pageAddr j) :
    i = j := by
  have := congrArg UInt32.toNat h
  rw [pageAddr_toNat hi, pageAddr_toNat hj] at this
  omega

theorem pageAddr_of_aligned {v : UInt32} (hv : PageAligned v) : pageAddr (v.toNat / 0x1000) = v := by
  rw [pageAligned_iff] at hv
  have := v.toNat_lt
  apply eq_of_toNat
  rw [pageAddr_toNat (by omega)]
  omega

theorem pageAddr_div {i : ℕ} (hi : i < 2 ^ 20) : (pageAddr i / 0x1000).toNat = i := by
  rw [UInt32.toNat_div, pageAddr_toNat hi]
  simp only [UInt32.reduceToNat]
  omega

/-- The index scaled by the code. -/
theorem ofNat_mul_page {i : ℕ} (hi : i < 2 ^ 20) : UInt32.ofNat i * 0x1000 = pageAddr i := by
  have hofNat : (UInt32.ofNat i).toNat = i := toNat_ofNat_of_lt (by omega)
  apply eq_of_toNat
  rw [pageAddr_toNat hi, toNat_mul_of_lt] <;> rw [hofNat] <;> simp only [UInt32.reduceToNat]
  omega

/-- Pages with the same index are one page. -/
theorem page_eq_of_div {u v : UInt32} (hu : PageAligned u) (hv : PageAligned v)
    (h : u / 0x1000 = v / 0x1000) : u = v := by
  have hdiv := congrArg UInt32.toNat h
  rw [UInt32.toNat_div, UInt32.toNat_div, show (0x1000 : UInt32).toNat = 0x1000 from rfl] at hdiv
  rw [← pageAddr_of_aligned hu, ← pageAddr_of_aligned hv, hdiv]

theorem pageAddr_succ {i : ℕ} (hi : i + 1 < 2 ^ 20) : pageAddr i + 0x1000 = pageAddr (i + 1) := by
  apply eq_of_toNat
  rw [toNat_add_of_lt] <;> rw [pageAddr_toNat (by omega)] <;> simp only [UInt32.reduceToNat]
  · rw [pageAddr_toNat hi]
    omega
  · omega

theorem pageAddr_eq_iff {i j : ℕ} (hi : i < 2 ^ 20) (hj : j < 2 ^ 20) :
    pageAddr i = pageAddr j ↔ i = j :=
  ⟨pageAddr_inj hi hj, fun he => by rw [he]⟩

/-- Words are told apart by their values. -/
theorem eq_iff_toNat {a b : UInt32} {n : ℕ} (hb : b.toNat = n) : a = b ↔ a.toNat = n := by
  rw [← hb, UInt32.toNat_inj]

theorem dirGet_pageAddr {i : ℕ} (hi : i < 2 ^ 20) : (dirGet (pageAddr i)).toNat = i / 1024 := by
  rw [dirGet_toNat, pageAddr_toNat hi]
  omega

theorem tlbGet_pageAddr {i : ℕ} (hi : i < 2 ^ 20) : (tlbGet (pageAddr i)).toNat = i % 1024 := by
  rw [tlbGet_toNat, pageAddr_toNat hi]
  omega

/-- `frame_alloc` where the frames from `f` on are the free ones. -/
theorem frameAlloc_first {m : Machine} {f : ℕ} (hf : f < 2 ^ 20)
    (hfs : f < m.frameBitmap.size.toNat) (hsize : m.frameBitmap.size ≠ 0xFFFFFFFF)
    (hused : ∀ i : UInt32, i.toNat < f → m.frameBitmap.words i ≠ 0)
    (hfree : m.frameBitmap.words (UInt32.ofNat f) = 0) :
    frameAlloc m = some (pageAddr f, frameSet (pageAddr f) m) := by
  have hfn : (UInt32.ofNat f).toNat = f := toNat_ofNat_of_lt (by omega)
  have hfirst : FindResult m.frameBitmap 0 1 (UInt32.ofNat f) := by
    refine FindResult.found _ (UInt32.le_iff_toNat_le.2 (by omega)) (runAt_one.2 hfree) fun j hj hrun => ?_
    rw [UInt32.lt_iff_toNat_lt, hfn] at hj
    exact hused j hj (runAt_one.1 hrun)
  obtain ⟨frame, m₁, hm₁⟩ := frameAlloc_total m hsize
  obtain ⟨i, hfind, rfl, rfl⟩ := frameAlloc_spec hm₁
  rw [hfind.unique hfirst, ofNat_mul_page hf] at hm₁
  exact hm₁

/-! ### The directory and its tables -/

/-- How many tables `k` pages take. -/
def regions (k : ℕ) : ℕ := (k + 1023) / 1024

/-- The directory is page `n`, and `k` pages are mapped to themselves.  The tables follow it, and what
a table has no page for is as `table_create` left it. -/
structure TablesAt (n size k : ℕ) (m : Machine) : Prop where
  cr3_eq : m.cr3 = pageAddr n
  paging_off : m.pagingState = 0
  size_eq : m.frameBitmap.size.toNat = size
  frames : ∀ i : UInt32, i.toNat < size →
    (m.frameBitmap.words i = 0 ↔ n + 1 + regions k ≤ i.toNat)
  dir : ∀ e : UInt32, e.toNat < 1024 → pageWord m.mem (pageAddr n) e =
    if e.toNat < regions k then pageAddr (n + 1 + e.toNat) ||| 3 else 2
  table : ∀ e < regions k, ∀ j : UInt32, j.toNat < 1024 →
    pageWord m.mem (pageAddr (n + 1 + e)) j =
      pageAddr (if e * 1024 + j.toNat < k then e * 1024 + j.toNat else j.toNat) ||| 3

section

variable {n size k : ℕ} {m : Machine}

/-- A new table before paging is on: the map of the lowest 4 MiB, in the given memory. -/
theorem tableFill_off {m : Machine} (table flags : UInt32) (h : m.pagingState = 0) :
    tableFill table flags m =
      { m with mem := fillTable table (fun i _ => i * 0x1000 ||| 3) m.mem } := by
  rw [tableFill, if_pos h]

theorem or_three_one (a : UInt32) : a ||| 3 ||| 1 = a ||| 3 := by
  rw [UInt32.or_assoc]
  rfl

/-- A page of a region that has its table. -/
theorem TablesAt.step_there (h : TablesAt n size k m) (hk : k < n)
    (hroom : n + 1 + regions n ≤ 2 ^ 20) (hmod : k % 1024 ≠ 0) :
    ∃ m', pageMap (pageAddr k) (pageAddr k) 3 0 m = some (pageAddr k, m') ∧
      TablesAt n size (k + 1) m' := by
  have hreg : regions (k + 1) = regions k ∧ k / 1024 < regions k ∧ regions k ≤ regions n := by
    simp only [regions]
    omega
  have hkn : k < 2 ^ 20 := by omega
  have hpd : pageDirectory 0 m = pageAddr n := h.cr3_eq
  have hd := dirGet_pageAddr hkn
  have ht := tlbGet_pageAddr hkn
  have hentry : pageWord m.mem (pageAddr n) (dirGet (pageAddr k)) =
      pageAddr (n + 1 + k / 1024) ||| 3 := by
    rw [h.dir _ (dirGet_lt _), hd, if_pos hreg.2.1]
  have hpres : Present (pageWord m.mem (pageAddr n) (dirGet (pageAddr k))) := by
    rw [hentry]
    exact present_or_three _
  have htable : PageAligned (pageAddr (n + 1 + k / 1024)) := pageAddr_aligned (by omega)
  have hdir : PageAligned (pageAddr n) := pageAddr_aligned (by omega)
  have hpte : pteAddr m.mem (pageAddr n) (pageAddr k) =
      pageAddr (n + 1 + k / 1024) + 4 * tlbGet (pageAddr k) := by
    show phyGet (pageWord m.mem (pageAddr n) (dirGet (pageAddr k))) + _ = _
    rw [hentry, phyGet_three htable]
  have hal := pageAddr_aligned hkn
  refine ⟨_, by rw [pageMap_run 3 0 hal hal, hpd, pageMapTable_there hpres, Option.map_some], ?_⟩
  rw [hpte, or_three_one]
  refine ⟨h.cr3_eq, h.paging_off, h.size_eq, ?_, ?_, ?_⟩
  · rw [hreg.1]
    exact h.frames
  · intro e he
    rw [hreg.1]
    rw [pageWord_write m.mem _ hdir htable he (tlbGet_lt _), if_neg, h.dir e he]
    exact fun hc => absurd (pageAddr_inj (by omega) (by omega) hc.1) (by omega)
  · intro e he j hj
    rw [hreg.1] at he
    rw [pageWord_write m.mem _ (pageAddr_aligned (by omega)) htable hj (tlbGet_lt _)]
    by_cases hc : pageAddr (n + 1 + e) = pageAddr (n + 1 + k / 1024) ∧ j = tlbGet (pageAddr k)
    · have he' := pageAddr_inj (by omega) (by omega) hc.1
      have hj' : j.toNat = k % 1024 := by rw [hc.2, ht]
      rw [if_pos hc, if_pos (by omega), show e * 1024 + j.toNat = k by omega]
    · rw [if_neg hc, h.table e he j hj]
      have hne : e * 1024 + j.toNat ≠ k := by
        intro heq
        refine hc ⟨?_, eq_of_toNat ?_⟩
        · rw [show e = k / 1024 by omega]
        · rw [ht]
          omega
      have hiff : e * 1024 + j.toNat < k + 1 ↔ e * 1024 + j.toNat < k := by omega
      simp only [hiff]

/-- The memory once page `t` has become a table, and the directory, page `n`, names it for page `k`. -/
def newTableMem (n t k : ℕ) (mem : Mem) : Mem :=
  write32 (fillTable (pageAddr t) (fun i _ => i * 0x1000 ||| 3) mem)
    (pageAddr n + 4 * dirGet (pageAddr k)) (pageAddr t ||| 3)

theorem newTableMem_word {t p : ℕ} (hn : n < 2 ^ 20) (ht : t < 2 ^ 20) (hk : k < 2 ^ 20)
    (hp : p < 2 ^ 20) (mem : Mem) {j : UInt32} (hj : j.toNat < 1024) :
    pageWord (newTableMem n t k mem) (pageAddr p) j =
      if p = n ∧ j.toNat = k / 1024 then pageAddr t ||| 3
      else if p = t then pageAddr j.toNat ||| 3 else pageWord mem (pageAddr p) j := by
  rw [newTableMem, pageWord_write _ _ (pageAddr_aligned hp) (pageAddr_aligned hn) hj (dirGet_lt _),
    pageWord_fillTable _ _ (pageAddr_aligned ht) (pageAddr_aligned hp) hj]
  have hja : j * 0x1000 = pageAddr j.toNat := by
    apply eq_of_toNat
    rw [pageAddr_toNat (by omega), toNat_mul_of_lt] <;> simp only [UInt32.reduceToNat]
    omega
  simp only [pageAddr_eq_iff hp hn, pageAddr_eq_iff hp ht, eq_iff_toNat (dirGet_pageAddr hk), hja]

/-- The table's word for page `k`. -/
theorem newTableMem_pte {t : ℕ} (hn : n < 2 ^ 20) (ht : t < 2 ^ 20) (hk : k < 2 ^ 20) (mem : Mem) :
    pteAddr (newTableMem n t k mem) (pageAddr n) (pageAddr k) =
      pageAddr t + 4 * tlbGet (pageAddr k) := by
  show phyGet (pageWord (newTableMem n t k mem) (pageAddr n) (dirGet (pageAddr k))) + _ = _
  rw [newTableMem_word hn ht hk hn mem (dirGet_lt _), if_pos ⟨rfl, dirGet_pageAddr hk⟩,
    phyGet_three (pageAddr_aligned ht)]

/-- The pages before the directory are as they were. -/
theorem newTableMem_below {t : ℕ} (hn : n < 2 ^ 20) (ht : t < 2 ^ 20) (hk : k < 2 ^ 20) (hnt : n ≤ t)
    (mem : Mem) (w : UInt32) {a : UInt32} (ha : a.toNat < n * 0x1000) :
    write32 (newTableMem n t k mem)
      (pteAddr (newTableMem n t k mem) (pageAddr n) (pageAddr k)) w a = mem a := by
  have hnn := pageAddr_toNat hn
  have htt := pageAddr_toNat ht
  have hd := entry_toNat (pageAddr_aligned hn) (dirGet_lt (pageAddr k))
  have he := entry_toNat (pageAddr_aligned ht) (tlbGet_lt (pageAddr k))
  have hdl := dirGet_lt (pageAddr k)
  have hel := tlbGet_lt (pageAddr k)
  rw [newTableMem_pte hn ht hk, write32_of_far _ _ _ (far_of_outside (by omega) (by omega)), newTableMem,
    write32_of_far _ _ _ (far_of_outside (by omega) (by omega)),
    fillTable_outside _ _ (far_of_outside (by omega) (by omega))]

/-- Page `k`, the first of a region, written into the new table. -/
theorem newTableMem_mapped {t p : ℕ} (hn : n < 2 ^ 20) (ht : t < 2 ^ 20) (hk : k < 2 ^ 20)
    (hp : p < 2 ^ 20) (hmod : k % 1024 = 0) (mem : Mem) {j : UInt32} (hj : j.toNat < 1024) :
    pageWord (write32 (newTableMem n t k mem)
        (pteAddr (newTableMem n t k mem) (pageAddr n) (pageAddr k)) (pageAddr k ||| 3 ||| 1))
        (pageAddr p) j =
      if p = t ∧ j.toNat = 0 then pageAddr k ||| 3
      else pageWord (newTableMem n t k mem) (pageAddr p) j := by
  rw [newTableMem_pte hn ht hk, or_three_one,
    pageWord_write _ _ (pageAddr_aligned hp) (pageAddr_aligned ht) hj (tlbGet_lt _)]
  have htlb : (tlbGet (pageAddr k)).toNat = 0 := by rw [tlbGet_pageAddr hk, hmod]
  simp only [pageAddr_eq_iff hp ht, eq_iff_toNat htlb]

/-- For the first page of a region the next free frame becomes its table. -/
theorem TablesAt.pageMap_new (h : TablesAt n size k m) (hk : k < n)
    (hroom : n + 1 + regions n ≤ 2 ^ 20) (hsize : n + 1 + regions n ≤ size)
    (hne : m.frameBitmap.size ≠ 0xFFFFFFFF) (hmod : k % 1024 = 0) {t : ℕ} (ht : t = n + 1 + regions k) :
    pageMap (pageAddr k) (pageAddr k) 3 0 m = some (pageAddr k, { frameSet (pageAddr t) m with
      mem := write32 (newTableMem n t k m.mem)
        (pteAddr (newTableMem n t k m.mem) (pageAddr n) (pageAddr k)) (pageAddr k ||| 3 ||| 1) }) := by
  have hreg : regions k = k / 1024 ∧ regions k + 1 ≤ regions n := by
    simp only [regions]
    omega
  have hkn : k < 2 ^ 20 := by omega
  have htn : t < 2 ^ 20 := by omega
  have hpd : pageDirectory 0 m = pageAddr n := h.cr3_eq
  have hpres : ¬ Present (pageWord m.mem (pageAddr n) (dirGet (pageAddr k))) := by
    rw [h.dir _ (dirGet_lt _), dirGet_pageAddr hkn, if_neg (by omega)]
    decide
  have halloc : frameAlloc m = some (pageAddr t, frameSet (pageAddr t) m) := by
    have htw : (UInt32.ofNat t).toNat = t := toNat_ofNat_of_lt (by omega)
    refine frameAlloc_first htn (by rw [h.size_eq]; omega) hne (fun i hi h0 => ?_) ?_
    · have := (h.frames i (by omega)).1 h0
      omega
    · exact (h.frames _ (by omega)).2 (by omega)
  have hframe0 : pageAddr t ≠ 0 := by
    intro h0
    have := congrArg UInt32.toNat h0
    rw [pageAddr_toNat htn, UInt32.toNat_zero] at this
    omega
  have hal := pageAddr_aligned hkn
  have hrun := pageMap_run 3 0 hal hal (m := m)
  have hoff : (frameSet (pageAddr t) m).pagingState = 0 := h.paging_off
  rw [hpd, pageMapTable_new hpres halloc, if_neg hframe0, tableFill_off _ _ hoff,
    Option.map_some] at hrun
  have hfold : (tableMap (pageAddr n) (dirGet (pageAddr k)) (pageAddr t) 3
      { frameSet (pageAddr t) m with
        mem := fillTable (pageAddr t) (fun i _ => i * 0x1000 ||| 3) (frameSet (pageAddr t) m).mem }).mem =
      newTableMem n t k m.mem := by
    simp only [tableMap, newTableMem, frameSet]
  rw [hfold] at hrun
  exact hrun

/-- The first page of a region, for which a table is made. -/
theorem TablesAt.step_new (h : TablesAt n size k m) (hk : k < n)
    (hroom : n + 1 + regions n ≤ 2 ^ 20) (hsize : n + 1 + regions n ≤ size)
    (hne : m.frameBitmap.size ≠ 0xFFFFFFFF) (hmod : k % 1024 = 0) :
    ∃ m', pageMap (pageAddr k) (pageAddr k) 3 0 m = some (pageAddr k, m') ∧
      TablesAt n size (k + 1) m' := by
  have hreg : regions (k + 1) = regions k + 1 ∧ regions k = k / 1024 ∧ regions k + 1 ≤ regions n := by
    simp only [regions]
    omega
  obtain ⟨t, ht⟩ : ∃ t, t = n + 1 + regions k := ⟨_, rfl⟩
  have hkn : k < 2 ^ 20 := by omega
  have hn : n < 2 ^ 20 := by omega
  have htn : t < 2 ^ 20 := by omega
  have hword := fun p (hp : p < 2 ^ 20) (j : UInt32) (hj : j.toNat < 1024) =>
    newTableMem_mapped hn htn hkn hp hmod m.mem hj
  refine ⟨_, h.pageMap_new hk hroom hsize hne hmod ht, h.cr3_eq, h.paging_off, h.size_eq, ?_, ?_, ?_⟩
  · intro i hi
    show (if i = pageAddr t / 0x1000 then (1 : UInt32) else m.frameBitmap.words i) = 0 ↔ _
    rw [hreg.1]
    by_cases hit : i.toNat = t
    · rw [if_pos ((eq_iff_toNat (pageAddr_div htn)).2 hit)]
      exact iff_of_false (by decide) (by omega)
    · rw [if_neg fun hc => hit ((eq_iff_toNat (pageAddr_div htn)).1 hc), h.frames i hi]
      omega
  · intro e he
    refine (hword n hn e he).trans ?_
    rw [if_neg (by omega), newTableMem_word hn htn hkn hn _ he, hreg.1]
    by_cases hek : e.toNat = k / 1024
    · rw [if_pos ⟨rfl, hek⟩, if_pos (by omega), show n + 1 + e.toNat = t by omega]
    · rw [if_neg fun hc => hek hc.2, if_neg (by omega), h.dir e he]
      have hiff : e.toNat < regions k + 1 ↔ e.toNat < regions k := by omega
      simp only [hiff]
  · intro e he j hj
    rw [hreg.1] at he
    have hpage : n + 1 + e < 2 ^ 20 := by omega
    refine (hword (n + 1 + e) hpage j hj).trans ?_
    rw [newTableMem_word hn htn hkn hpage _ hj]
    by_cases hek : e = regions k
    · have het : n + 1 + e = t := by omega
      by_cases hj0 : j.toNat = 0
      · rw [if_pos ⟨het, hj0⟩, if_pos (by omega), show e * 1024 + j.toNat = k by omega]
      · rw [if_neg fun hc => hj0 hc.2, if_neg (by omega), if_pos het, if_neg (by omega)]
    · rw [if_neg (by omega), if_neg (by omega), if_neg (by omega), h.table e (by omega) j hj]
      have hiff : e * 1024 + j.toNat < k + 1 ↔ e * 1024 + j.toNat < k := by omega
      simp only [hiff]

end

/-! ### The machine before the pages are mapped -/

/-- The new directory: nothing is present in it. -/
theorem directory_tablesAt {m : Machine} {n : ℕ} (hn : n + 1 ≤ 2 ^ 20) (hoff : m.pagingState = 0)
    (hwords : ∀ i : UInt32, i.toNat < m.frameBitmap.size.toNat →
      (m.frameBitmap.words i = 0 ↔ n ≤ i.toNat)) :
    TablesAt n m.frameBitmap.size.toNat 0 (directoryLoad (pageAddr n) { frameSet (pageAddr n) m with
      mem := fillTable (pageAddr n) (fun _ _ => 2) m.mem }) := by
  obtain ⟨mem, hmem⟩ : ∃ mem, fillTable (pageAddr n) (fun _ _ => 2) m.mem = mem := ⟨_, rfl⟩
  have hword : ∀ e : UInt32, e.toNat < 1024 → pageWord mem (pageAddr n) e = 2 := by
    intro e he
    rw [← hmem, pageWord_fillTable m.mem _ (pageAddr_aligned (by omega))
      (pageAddr_aligned (by omega)) he, if_pos rfl]
  rw [hmem]
  refine ⟨rfl, hoff, rfl, fun i hi => ?_, fun e he => ?_, fun e he => ?_⟩
  · show (if i = pageAddr n / 0x1000 then (1 : UInt32) else m.frameBitmap.words i) = 0 ↔ _
    have hdiv := pageAddr_div (i := n) (by omega)
    by_cases hin : i.toNat = n
    · rw [if_pos (eq_of_toNat (by rw [hin, hdiv]))]
      exact iff_of_false (by decide) (by omega)
    · rw [if_neg fun hc => hin (by rw [hc, hdiv]), hwords i hi]
      simp only [regions]
      omega
  · rw [if_neg (by simp [regions])]
    exact hword e he
  · simp [regions] at he

/-! ### What the tables translate -/

/-- A page below `k` has its own frame; any other page of a region with a table has the frame of the
page of the lowest region at the same place. -/
theorem TablesAt.translate {n size k : ℕ} {m : Machine} (h : TablesAt n size k m)
    (hroom : n + 1 + regions k ≤ 2 ^ 20) {p : ℕ} (hp : p < 2 ^ 20) :
    translateIn m.mem (pageAddr n) (pageAddr p) =
      if p / 1024 < regions k then some (pageAddr (if p < k then p else p % 1024)) else none := by
  have hd := dirGet_pageAddr hp
  have ht := tlbGet_pageAddr hp
  rw [translateIn, h.dir _ (dirGet_lt _), hd]
  by_cases hreg : p / 1024 < regions k
  · have hword := h.table (p / 1024) hreg (tlbGet (pageAddr p)) (tlbGet_lt _)
    rw [ht, show p / 1024 * 1024 + p % 1024 = p by omega] at hword
    have hframe : PageAligned (pageAddr (if p < k then p else p % 1024)) := by
      refine pageAddr_aligned ?_
      split <;> omega
    rw [if_pos hreg, if_pos hreg, phyGet_three (pageAddr_aligned (by omega)), hword,
      if_pos ⟨present_or_three _, present_or_three _⟩, phyGet_three hframe]
  · rw [if_neg hreg, if_neg hreg, if_neg fun hc => absurd hc.1 (by decide)]

end CometOS
