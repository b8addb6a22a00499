import CometOS.Heap
import CometOS.PagingTables

/-!
# All or nothing in `heap_alloc`

`heap_alloc` marks its entries, and then takes a frame for each page, and one for each table that
`page_map` makes on the way.  It never finds out that the frames have run out: `frame_alloc` goes on
handing out the last page there is.  With frames enough, and with the directory and the tables where
`table_create` does not write over them, each page gets a frame of its own.
-/

namespace CometOS

open ByteMemory Loop Run Word32

/-! ### What a call should do -/

/-- The `k`th page of a block. -/
def blockPage (addr : UInt32) (k : ℕ) : UInt32 := addr + UInt32.ofNat (k * 0x1000)

/-- The numbers of the free frames that have an address. -/
def freeFrames (m : Machine) : Finset ℕ :=
  (Finset.range (min m.frameBitmap.size.toNat (2 ^ 20))).filter
    fun i => m.frameBitmap.words (UInt32.ofNat i) = 0

theorem mem_freeFrames {m : Machine} {i : ℕ} :
    i ∈ freeFrames m ↔ i < m.frameBitmap.size.toNat ∧ i < 2 ^ 20 ∧
      m.frameBitmap.words (UInt32.ofNat i) = 0 := by
  rw [freeFrames, Finset.mem_filter, Finset.mem_range, Nat.lt_min, and_assoc]

/-- **`frame_alloc` takes the first free frame**, while there is one. -/
theorem frameAlloc_least {m : Machine} (hsize : m.frameBitmap.size ≠ 0xFFFFFFFF)
    (hne : (freeFrames m).Nonempty) :
    ∃ i ∈ freeFrames m, frameAlloc m = some (pageAddr i, frameSet (pageAddr i) m) ∧
      freeFrames (frameSet (pageAddr i) m) = (freeFrames m).erase i ∧
      ∀ j ∈ (freeFrames m).erase i, i < j := by
  obtain ⟨i, hi, hmin⟩ := Finset.exists_min_image (freeFrames m) id hne
  obtain ⟨his, hi20, hfree⟩ := mem_freeFrames.1 hi
  refine ⟨i, hi, frameAlloc_first hi20 his hsize (fun j hj h0 => ?_) hfree, ?_, fun j hj => ?_⟩
  · have hmem : j.toNat ∈ freeFrames m := by
      refine mem_freeFrames.2 ⟨by omega, by omega, ?_⟩
      rw [ofNat_toNat]
      exact h0
    have := hmin _ hmem
    simp only [id] at this
    omega
  · ext j
    rw [Finset.mem_erase, mem_freeFrames, mem_freeFrames]
    show j < m.frameBitmap.size.toNat ∧ j < 2 ^ 20 ∧ (if UInt32.ofNat j = pageAddr i / 0x1000 then
      (1 : UInt32) else m.frameBitmap.words (UInt32.ofNat j)) = 0 ↔ _
    by_cases hj20 : j < 2 ^ 20
    · have hji : UInt32.ofNat j = pageAddr i / 0x1000 ↔ j = i := by
        rw [← UInt32.toNat_inj, pageAddr_div hi20, toNat_ofNat_of_lt (by omega)]
      by_cases hj : j = i
      · rw [if_pos (hji.2 hj)]
        exact iff_of_false (fun hc => absurd hc.2.2 (by decide)) fun hc => hc.1 hj
      · rw [if_neg fun hc => hj (hji.1 hc)]
        exact ⟨fun hc => ⟨hj, hc⟩, fun hc => hc.2⟩
    · exact iff_of_false (fun hc => hj20 hc.2.1) fun hc => hj20 hc.2.2.1
  · obtain ⟨hji, hj⟩ := Finset.mem_erase.1 hj
    have := hmin j hj
    simp only [id] at this
    omega

/-! ### When there is enough -/

/-- The regions of the pages from the `k`th on that have no table. -/
def missingTables (m : Machine) (addr : UInt32) (k q : ℕ) : Finset ℕ :=
  (Finset.range 1024).filter fun d =>
    (∃ j ∈ Finset.Ico k q, (addr.toNat + j * 0x1000) / 2 ^ 22 = d) ∧
      ¬ Present (pageWord m.mem m.cr3 (UInt32.ofNat d))

/-- The directory and the tables lie below every free frame, and no free frame is as far up as that
`table_create` would clear past the end of memory. -/
structure TablesLow (m : Machine) : Prop where
  bound : ∀ i ∈ freeFrames m, i ≤ 0x7FFFE
  dir : ∀ i ∈ freeFrames m, m.cr3.toNat / 0x1000 < i
  table : ∀ i ∈ freeFrames m, ∀ e : UInt32, e.toNat < 1024 → Present (pageWord m.mem m.cr3 e) →
    (phyGet (pageWord m.mem m.cr3 e)).toNat / 0x1000 < i

/-- What the pages of a block need: addresses, a directory as it should be, a free frame for each page
and for each table to be made, and if there is one to be made, nothing in its way. -/
structure FramesFor (m : Machine) (addr : UInt32) (k q : ℕ) : Prop where
  noWrap : addr.toNat + q * 0x1000 < 2 ^ 32
  dirOk : DirOk m m.cr3
  enough : q - k + (missingTables m addr k q).card ≤ (freeFrames m).card
  tables : missingTables m addr k q = ∅ ∨ TablesLow m

theorem blockPage_toNat {addr : UInt32} {k q : ℕ} (h : addr.toNat + q * 0x1000 < 2 ^ 32)
    (hk : k ≤ q) : (blockPage addr k).toNat = addr.toNat + k * 0x1000 := by
  have hlt : addr.toNat + k * 0x1000 < 2 ^ 32 :=
    lt_of_le_of_lt (Nat.add_le_add_left (Nat.mul_le_mul_right 0x1000 hk) _) h
  have hkn : (UInt32.ofNat (k * 0x1000)).toNat = k * 0x1000 := toNat_ofNat_of_lt (by omega)
  rw [blockPage, toNat_add_of_lt (by rwa [hkn]), hkn]

theorem blockPage_region {addr : UInt32} {k q : ℕ} (h : addr.toNat + q * 0x1000 < 2 ^ 32)
    (hk : k ≤ q) : (dirGet (blockPage addr k)).toNat = (addr.toNat + k * 0x1000) / 2 ^ 22 := by
  rw [dirGet_toNat, blockPage_toNat h hk]

/-! ### One turn -/

/-- A directory whose entries are the same, with no frame given back. -/
theorem DirOk.keep {m m' : Machine} {pd : UInt32} (h : DirOk m pd) (hmaps : Maps m m')
    (hword : ∀ e : UInt32, e.toNat < 1024 → pageWord m'.mem pd e = pageWord m.mem pd e) :
    DirOk m' pd := by
  refine ⟨⟨h.aligned, fun e he hp => ?_, fun e e' he he' hp hp' hsame => ?_⟩,
    hmaps.used _ h.used_dir, fun e he hp => ?_⟩
  · rw [hword e he] at hp ⊢
    exact h.ne_dir e he hp
  · rw [hword e he] at hp hsame
    rw [hword e' he'] at hp' hsame
    exact h.inj e e' he he' hp hp' hsame
  · rw [hword e he] at hp ⊢
    exact hmaps.used _ (h.used e he hp)

/-- A table made in a free page leaves the pages below it alone. -/
theorem tableFill_below {table base i : UInt32} (flags : UInt32) (m : Machine)
    (ht : PageAligned table) (hlow : table.toNat ≤ 0x7FFFE000) (hb : PageAligned base)
    (hbt : base.toNat < table.toNat) (hi : i.toNat < 1024) :
    pageWord (tableFill table flags m).mem base i = pageWord m.mem base i := by
  have hne : base ≠ table := by
    rintro rfl
    exact Nat.lt_irrefl _ hbt
  have hfill : pageWord (fill m.mem table 0 (table + 0x4000).toNat) base i =
      pageWord m.mem base i := by
    have hlen : (table + 0x4000).toNat = table.toNat + 0x4000 :=
      toNat_add_of_lt (by simp only [UInt32.reduceToNat]; omega)
    have hword := entry_toNat hb hi
    refine read32_of_apart (n := (table + 0x4000).toNat) (a := table) (fun x hx => if_neg (by omega)) ?_
    refine (apart_of_le (by decide) ?_ (by omega)).symm
    rw [pageAligned_iff] at ht hb
    omega
  unfold tableFill
  split
  · simp only
    rw [pageWord_fillTable _ _ ht hb hi, if_neg hne]
  · simp only
    split
    · rw [pageWord_fillTable _ _ ht hb hi, if_neg hne, hfill]
    · exact hfill

theorem mem_missingTables {m : Machine} {addr : UInt32} {k q d : ℕ} :
    d ∈ missingTables m addr k q ↔ d < 1024 ∧
      (∃ j, (k ≤ j ∧ j < q) ∧ (addr.toNat + j * 0x1000) / 2 ^ 22 = d) ∧
      ¬ Present (pageWord m.mem m.cr3 (UInt32.ofNat d)) := by
  simp only [missingTables, Finset.mem_filter, Finset.mem_range, Finset.mem_Ico]

theorem freeFrames_congr {m m' : Machine} (h : m'.frameBitmap = m.frameBitmap) :
    freeFrames m' = freeFrames m := by
  rw [freeFrames, freeFrames, h]

theorem frameSet_used (a : UInt32) (m : Machine) :
    (frameSet a m).frameBitmap.words (a / 0x1000) ≠ 0 := by
  show (if a / 0x1000 = a / 0x1000 then (1 : UInt32) else _) ≠ 0
  rw [if_pos rfl]
  decide

theorem TablesLow.subset {m m' : Machine} (h : TablesLow m) (hcr3 : m'.cr3 = m.cr3)
    (hfree : freeFrames m' ⊆ freeFrames m)
    (hword : ∀ e : UInt32, e.toNat < 1024 → pageWord m'.mem m.cr3 e = pageWord m.mem m.cr3 e) :
    TablesLow m' := by
  refine ⟨fun i hi => h.bound i (hfree hi), fun i hi => ?_, fun i hi e he hp => ?_⟩
  · rw [hcr3]
    exact h.dir i (hfree hi)
  · rw [hcr3, hword e he] at hp ⊢
    exact h.table i (hfree hi) e he hp

section

variable {m : Machine} {i : ℕ} {v : UInt32}

/-- The machine with a table for `v` made in frame `i` and entered. -/
def withTable (m : Machine) (v : UInt32) (i : ℕ) : Machine :=
  tableMap m.cr3 (dirGet v) (pageAddr i) 3 (tableFill (pageAddr i) 3 (frameSet (pageAddr i) m))

theorem withTable_maps : Maps m (withTable m v i) :=
  (frameSet_maps _ m).trans ((tableFill_maps _ _ _).trans (maps_mem _ _))

theorem tableFill_frames (table flags : UInt32) (m : Machine) :
    (tableFill table flags m).frameBitmap = m.frameBitmap := by
  unfold tableFill
  split
  · rfl
  · rfl

theorem withTable_frames : (withTable m v i).frameBitmap = (frameSet (pageAddr i) m).frameBitmap :=
  tableFill_frames _ _ _

/-- A page below the new table, seen afterwards. -/
theorem withTable_word (hdir : PageAligned m.cr3) (hi : i ≤ 0x7FFFE) {base j : UInt32}
    (hb : PageAligned base) (hbi : base.toNat / 0x1000 < i) (hj : j.toNat < 1024) :
    pageWord (withTable m v i).mem base j =
      if base = m.cr3 ∧ j = dirGet v then pageAddr i ||| 3 else pageWord m.mem base j := by
  have ht : (pageAddr i).toNat = i * 0x1000 := pageAddr_toNat (by omega)
  have hal := pageAddr_aligned (i := i) (by omega)
  show pageWord (write32 (tableFill (pageAddr i) 3 (frameSet (pageAddr i) m)).mem
    (m.cr3 + 4 * dirGet v) (pageAddr i ||| 3)) base j = _
  rw [pageWord_write _ _ hb hdir hj (dirGet_lt v),
    tableFill_below 3 _ hal (by omega) hb (by rw [pageAligned_iff] at hb; omega) hj]
  rfl

/-- The directory has the new table in its entry, and the other entries as before. -/
theorem withTable_entry (h : DirOk m m.cr3) (hlow : TablesLow m) (hi : i ∈ freeFrames m) :
    pageWord (withTable m v i).mem m.cr3 (dirGet v) = pageAddr i ||| 3 ∧
      ∀ e : UInt32, e.toNat < 1024 → e ≠ dirGet v →
        pageWord (withTable m v i).mem m.cr3 e = pageWord m.mem m.cr3 e := by
  have hib := hlow.bound i hi
  have hidir := hlow.dir i hi
  constructor
  · rw [withTable_word h.aligned hib h.aligned hidir (dirGet_lt v), if_pos ⟨rfl, rfl⟩]
  · intro e he hne
    rw [withTable_word h.aligned hib h.aligned hidir he, if_neg fun hc => hne hc.2]

/-- The new table lies above the directory and the other tables, and joins them. -/
theorem withTable_dirOk (h : DirOk m m.cr3) (hlow : TablesLow m) (hi : i ∈ freeFrames m) :
    DirOk (withTable m v i) m.cr3 := by
  obtain ⟨hself, hother⟩ := withTable_entry (v := v) h hlow hi
  have hib := hlow.bound i hi
  have hidir := hlow.dir i hi
  have ht : (pageAddr i).toNat = i * 0x1000 := pageAddr_toNat (by omega)
  have hal := pageAddr_aligned (i := i) (by omega)
  refine ⟨h.toDirWf.enter hself hother ?_ fun e he hp hc => ?_, withTable_maps.used _ h.used_dir,
    fun e he hp => ?_⟩
  · rw [phyGet_three hal]
    intro hc
    rw [← hc, ht] at hidir
    omega
  · have := hlow.table i hi e he hp
    rw [hc, phyGet_three hal, ht] at this
    omega
  · by_cases hev : e = dirGet v
    · rw [hev, hself, phyGet_three hal, withTable_frames]
      exact frameSet_used _ _
    · rw [hother e he hev] at hp ⊢
      exact withTable_maps.used _ (h.used e he hp)

/-- No page of another region is translated otherwise. -/
theorem withTable_translate (h : DirOk m m.cr3) (hlow : TablesLow m) (hi : i ∈ freeFrames m)
    {u : UInt32} (hu : dirGet u ≠ dirGet v) :
    translateIn (withTable m v i).mem m.cr3 u = translateIn m.mem m.cr3 u := by
  refine translateIn_congr ((withTable_entry h hlow hi).2 _ (dirGet_lt u) hu) fun hp => ?_
  rw [withTable_word h.aligned (hlow.bound i hi) (pageAligned_phyGet _)
    (hlow.table i hi _ (dirGet_lt u) hp) (tlbGet_lt u), if_neg]
  exact fun hc => h.ne_dir _ (dirGet_lt u) hp hc.1

end

/-! ### The mapping loop -/

/-- After `k` turns: the pages so far have frames of their own that were free, and what the others
need is there. -/
structure Mapping (m₀ : Machine) (addr : UInt32) (q k : ℕ) (frame : ℕ → UInt32) (m : Machine) :
    Prop where
  maps : Maps m₀ m
  fits : FramesFor m addr k q
  mapped : ∀ j < k, translate m (blockPage addr j) = some (frame j)
  fresh : ∀ j < k, PageAligned (frame j) ∧ m₀.frameBitmap.words (frame j / 0x1000) = 0 ∧
    m.frameBitmap.words (frame j / 0x1000) ≠ 0 ∧ frame j / 0x1000 < m₀.frameBitmap.size
  inj : ∀ i < k, ∀ j < k, frame i = frame j → i = j

section

variable {m₀ m m₂ : Machine} {addr f : UInt32} {q k : ℕ} {frame : ℕ → UInt32}

/-- One more page with a frame that was free. -/
theorem Mapping.next (h : Mapping m₀ addr q k frame m) (hmaps : Maps m m₂)
    (hfits : FramesFor m₂ addr (k + 1) q) (hpage : translate m₂ (blockPage addr k) = some f)
    (hkeep : ∀ j < k, translate m₂ (blockPage addr j) = translate m (blockPage addr j))
    (hf : PageAligned f) (hfree : m.frameBitmap.words (f / 0x1000) = 0)
    (hused : m₂.frameBitmap.words (f / 0x1000) ≠ 0) (hlt : f / 0x1000 < m.frameBitmap.size) :
    Mapping m₀ addr q (k + 1) (Function.update frame k f) m₂ := by
  have hold : ∀ j < k, Function.update frame k f j = frame j := fun j hj =>
    Function.update_of_ne (by omega) _ _
  have hself : Function.update frame k f k = f := Function.update_self _ _ _
  have hnew : ∀ j < k, frame j ≠ f := by
    rintro j hj rfl
    exact (h.fresh j hj).2.2.1 hfree
  refine ⟨h.maps.trans hmaps, hfits, fun j hj => ?_, fun j hj => ?_, fun i hi j hj hij => ?_⟩
  · rcases Nat.lt_succ_iff_lt_or_eq.1 hj with hj | rfl
    · rw [hold j hj, hkeep j hj, h.mapped j hj]
    · rw [hself, hpage]
  · rcases Nat.lt_succ_iff_lt_or_eq.1 hj with hj | rfl
    · rw [hold j hj]
      obtain ⟨h1, h2, h3, h4⟩ := h.fresh j hj
      exact ⟨h1, h2, hmaps.used _ h3, h4⟩
    · rw [hself]
      refine ⟨hf, ?_, hused, ?_⟩
      · by_contra hne
        exact h.maps.used _ hne hfree
      · rw [← h.maps.size_eq]
        exact hlt
  · rcases Nat.lt_succ_iff_lt_or_eq.1 hi with hi | rfl
    · rw [hold i hi] at hij
      rcases Nat.lt_succ_iff_lt_or_eq.1 hj with hj | rfl
      · rw [hold j hj] at hij
        exact h.inj i hi j hj hij
      · rw [hself] at hij
        exact absurd hij (hnew i hi)
    · rw [hself] at hij
      rcases Nat.lt_succ_iff_lt_or_eq.1 hj with hj | rfl
      · rw [hold j hj] at hij
        exact absurd hij.symm (hnew j hj)
      · rfl

end

/-- What the blocks' pages need depends on the directory and on which frames are free. -/
theorem FramesFor.congr {m m' : Machine} {addr : UInt32} {k q : ℕ} (h : FramesFor m addr k q)
    (hmaps : Maps m m') (hframes : m'.frameBitmap = m.frameBitmap)
    (hword : ∀ e : UInt32, e.toNat < 1024 → pageWord m'.mem m.cr3 e = pageWord m.mem m.cr3 e) :
    FramesFor m' addr k q := by
  have hmissing : missingTables m' addr k q = missingTables m addr k q := by
    ext d
    rw [mem_missingTables, mem_missingTables, hmaps.cr3_eq]
    by_cases hd : d < 1024
    · rw [hword _ (by rw [toNat_ofNat_of_lt (by omega)]; exact hd)]
    · exact iff_of_false (fun hc => hd hc.1) fun hc => hd hc.1
  refine ⟨h.noWrap, ?_, ?_, ?_⟩
  · rw [hmaps.cr3_eq]
    exact h.dirOk.keep hmaps hword
  · rw [hmissing, freeFrames_congr hframes]
    exact h.enough
  · rw [hmissing]
    refine h.tables.imp id fun hlow => hlow.subset hmaps.cr3_eq ?_ hword
    rw [freeFrames_congr hframes]

theorem missingTables_succ (m : Machine) (addr : UInt32) (k q : ℕ) :
    missingTables m addr (k + 1) q ⊆ missingTables m addr k q := by
  intro d hd
  obtain ⟨hd, ⟨j, hj, hjd⟩, hp⟩ := mem_missingTables.1 hd
  exact mem_missingTables.2 ⟨hd, ⟨j, ⟨by omega, hj.2⟩, hjd⟩, hp⟩

section

variable {m : Machine} {addr : UInt32} {i k q : ℕ}

/-- A page of a region with a table needs its frame. -/
theorem FramesFor.found (h : FramesFor m addr k q) (hk : k < q) (hi : i ∈ freeFrames m)
    (hfree : freeFrames (frameSet (pageAddr i) m) = (freeFrames m).erase i) :
    FramesFor (frameSet (pageAddr i) m) addr (k + 1) q := by
  have hmono := missingTables_succ m addr k q
  refine ⟨h.noWrap, ?_, ?_, ?_⟩
  · exact h.dirOk.keep (frameSet_maps _ m) fun e _ => rfl
  · have hsub := Finset.card_le_card hmono
    have henough := h.enough
    have hcard := Finset.card_erase_of_mem hi
    show q - (k + 1) + (missingTables m addr (k + 1) q).card ≤ _
    rw [hfree]
    omega
  · rcases h.tables with hnone | hlow
    · refine Or.inl (Finset.subset_empty.1 ?_)
      rw [← hnone]
      exact hmono
    · refine Or.inr (hlow.subset rfl ?_ fun e _ => rfl)
      rw [hfree]
      exact Finset.erase_subset _ _

/-- Once the lowest free frame has become a table, the tables are still below the free frames. -/
theorem TablesLow.withTable (hlow : TablesLow m) (hdir : DirOk m m.cr3) {v : UInt32}
    (hi : i ∈ freeFrames m) (hfree : freeFrames (frameSet (pageAddr i) m) = (freeFrames m).erase i)
    (hleast : ∀ j ∈ (freeFrames m).erase i, i < j) : TablesLow (withTable m v i) := by
  have hi20 := (mem_freeFrames.1 hi).2.1
  obtain ⟨hself, hothers⟩ := withTable_entry (v := v) hdir hlow hi
  have hfrees : freeFrames (CometOS.withTable m v i) = (freeFrames m).erase i := by
    rw [← hfree]
    exact freeFrames_congr withTable_frames
  have hcr3 := (withTable_maps (m := m) (v := v) (i := i)).cr3_eq
  constructor
  · intro j hj
    rw [hfrees] at hj
    exact hlow.bound j (Finset.mem_of_mem_erase hj)
  · intro j hj
    rw [hfrees] at hj
    rw [hcr3]
    exact hlow.dir j (Finset.mem_of_mem_erase hj)
  · intro j hj e he hpe
    rw [hfrees] at hj
    rw [hcr3] at hpe ⊢
    by_cases hev : e = dirGet v
    · rw [hev, hself, phyGet_three (pageAddr_aligned hi20), pageAddr_toNat hi20]
      have := hleast j hj
      omega
    · rw [hothers e he hev] at hpe ⊢
      exact hlow.table j (Finset.mem_of_mem_erase hj) e he hpe

/-- The new table is one that is missing no more. -/
theorem missingTables_withTable (hlow : TablesLow m) (hdir : DirOk m m.cr3) (v : UInt32)
    (hi : i ∈ freeFrames m) :
    missingTables (withTable m v i) addr (k + 1) q ⊆
      (missingTables m addr k q).erase (dirGet v).toNat := by
  obtain ⟨hself, hothers⟩ := withTable_entry (v := v) hdir hlow hi
  have hcr3 := (withTable_maps (m := m) (v := v) (i := i)).cr3_eq
  intro d hdm
  obtain ⟨hd, hj, hpd⟩ := mem_missingTables.1 hdm
  have hdn : (UInt32.ofNat d).toNat = d := toNat_ofNat_of_lt (by omega)
  rw [hcr3] at hpd
  have hne : UInt32.ofNat d ≠ dirGet v := by
    intro hc
    rw [hc, hself] at hpd
    exact hpd (present_or_three _)
  refine Finset.mem_erase.2 ⟨?_, missingTables_succ m addr k q (mem_missingTables.2 ⟨hd, hj, ?_⟩)⟩
  · intro hc
    exact hne (eq_of_toNat (by rw [hdn, hc]))
  · rw [hothers _ (by omega) hne] at hpd
    exact hpd

/-- A page of a region without one needs a frame for the table, too, and what the pages after it need
is there with the table. -/
theorem FramesFor.made (h : FramesFor m addr k q) (hk : k < q) (hi : i ∈ freeFrames m)
    (hfree : freeFrames (frameSet (pageAddr i) m) = (freeFrames m).erase i)
    (hsize : m.frameBitmap.size ≠ 0xFFFFFFFF)
    (hp : ¬ Present (pageWord m.mem m.cr3 (dirGet (blockPage addr k)))) :
    ∃ t, frameAlloc (frameSet (pageAddr i) m) =
        some (pageAddr t, frameSet (pageAddr t) (frameSet (pageAddr i) m)) ∧ pageAddr t ≠ 0 ∧
      FramesFor (withTable (frameSet (pageAddr i) m) (blockPage addr k) t) addr (k + 1) q ∧
      Present (pageWord (withTable (frameSet (pageAddr i) m) (blockPage addr k) t).mem m.cr3
        (dirGet (blockPage addr k))) ∧
      ∀ u, dirGet u ≠ dirGet (blockPage addr k) →
        translateIn (withTable (frameSet (pageAddr i) m) (blockPage addr k) t).mem m.cr3 u =
          translateIn m.mem m.cr3 u := by
  have hreg := blockPage_region h.noWrap hk.le
  have henough := h.enough
  have hd : (dirGet (blockPage addr k)).toNat ∈ missingTables m addr k q := by
    refine mem_missingTables.2 ⟨dirGet_lt _, ⟨k, ⟨le_refl k, hk⟩, hreg.symm⟩, ?_⟩
    rw [ofNat_toNat]
    exact hp
  have hcard := Finset.card_erase_of_mem hd
  have hcard₁ := Finset.card_erase_of_mem hi
  have hpos := Finset.card_pos.2 ⟨_, hd⟩
  have hlow : TablesLow (frameSet (pageAddr i) m) := by
    refine (h.tables.resolve_left fun hc => Finset.ne_empty_of_mem hd hc).subset rfl ?_
      fun e _ => rfl
    rw [hfree]
    exact Finset.erase_subset _ _
  have hdir : DirOk (frameSet (pageAddr i) m) (frameSet (pageAddr i) m).cr3 :=
    h.dirOk.keep (frameSet_maps _ m) fun e _ => rfl
  obtain ⟨t, ht, halloc, hfree₂, hgt⟩ := frameAlloc_least (m := frameSet (pageAddr i) m) hsize
    (Finset.card_pos.1 (by rw [hfree]; omega))
  have ht20 := (mem_freeFrames.1 ht).2.1
  have ht0 : pageAddr t ≠ 0 := by
    intro hc
    have h1 := congrArg UInt32.toNat hc
    have h2 := hlow.dir t ht
    rw [pageAddr_toNat ht20, UInt32.toNat_zero] at h1
    omega
  have hok := withTable_dirOk (v := blockPage addr k) hdir hlow ht
  obtain ⟨hself, _⟩ := withTable_entry (v := blockPage addr k) hdir hlow ht
  have hcard₂ := Finset.card_erase_of_mem ht
  have hfree₃ : freeFrames (withTable (frameSet (pageAddr i) m) (blockPage addr k) t) =
      (freeFrames (frameSet (pageAddr i) m)).erase t := by
    rw [← hfree₂]
    exact freeFrames_congr withTable_frames
  have hpres : Present (pageWord (withTable (frameSet (pageAddr i) m) (blockPage addr k) t).mem
      (frameSet (pageAddr i) m).cr3 (dirGet (blockPage addr k))) := by
    rw [hself]
    exact present_or_three _
  refine ⟨t, halloc, ht0, ⟨h.noWrap, ?_, ?_, Or.inr (hlow.withTable hdir ht hfree₂ hgt)⟩, hpres,
    fun u hu => withTable_translate hdir hlow ht hu⟩
  · rw [(withTable_maps (m := frameSet (pageAddr i) m) (v := blockPage addr k) (i := t)).cr3_eq]
    exact hok
  · have hle := Finset.card_le_card
      (@missingTables_withTable _ addr _ k q hlow hdir (blockPage addr k) ht)
    change _ ≤ ((missingTables m addr k q).erase _).card at hle
    rw [hfree₃, hcard₂, hfree]
    omega

/-- `page_map` finds a table for the page or makes one; either way the pages mapped before stay. -/
theorem FramesFor.table (h : FramesFor m addr k q) (hk : k < q) (hi : i ∈ freeFrames m)
    (hfree : freeFrames (frameSet (pageAddr i) m) = (freeFrames m).erase i)
    (hsize : m.frameBitmap.size ≠ 0xFFFFFFFF) :
    ∃ m', pageMapTable (blockPage addr k) m.cr3 (frameSet (pageAddr i) m) = some m' ∧
      Maps (frameSet (pageAddr i) m) m' ∧ FramesFor m' addr (k + 1) q ∧
      Present (pageWord m'.mem m.cr3 (dirGet (blockPage addr k))) ∧
      ∀ u w, translate m u = some w → translate m' u = some w := by
  by_cases hp : Present (pageWord m.mem m.cr3 (dirGet (blockPage addr k)))
  · exact ⟨_, pageMapTable_there hp, Maps.refl _, h.found hk hi hfree, hp, fun u w hu => hu⟩
  · obtain ⟨t, halloc, ht0, hfits, hpres, htrans⟩ := h.made hk hi hfree hsize hp
    refine ⟨_, ?_, withTable_maps, hfits, hpres, fun u w hu => ?_⟩
    · rw [pageMapTable_new (m := frameSet (pageAddr i) m) hp halloc, if_neg ht0]
      rfl
    · -- a page that was mapped is of another region
      have hne : dirGet u ≠ dirGet (blockPage addr k) := by
        intro hc
        rw [translate_eq, translateIn, hc, if_neg fun hboth => hp hboth.1] at hu
        cases hu
      rw [translate_eq, withTable_maps.cr3_eq]
      exact (htrans u hne).trans hu

end

end CometOS
