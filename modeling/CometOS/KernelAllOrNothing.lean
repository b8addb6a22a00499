import CometOS.KernelRun

/-!
# All or nothing in the kernel's memory

What `HeapFrames` proves of the machine, for the memory that `paging_initialize` leaves: while the search
comes out among the heap bitmap's own words, and the pages are of the one table with a free frame for each,
`heap_alloc` does all of its work or none.
-/

namespace CometOS

open ByteMemory Loop Paged Run Word32

section

variable {L : KernelLayout} {c : Computer} {m : Machine} {heap : Heap}

theorem KernelAt.dirOk (h : KernelAt L c m heap) : DirOk m m.cr3 := by
  have hL := L.order
  have hused : ∀ {base : UInt32} {i : ℕ}, base = pageAddr i → L.Own i →
      m.frameBitmap.words (base / 0x1000) ≠ 0 := by
    rintro base i rfl hi
    have hi2 := hi.2
    have hdiv : pageAddr i / 0x1000 = UInt32.ofNat i := by
      apply eq_of_toNat
      rw [pageAddr_div (by omega), toNat_ofNat_of_lt (by omega)]
    rw [hdiv]
    exact h.tables.used i hi
  rw [h.tables.cr3_eq]
  refine ⟨h.tables.dirWf, hused rfl L.own_directory, fun e he hp => ?_⟩
  have he0 : e = 0 := by
    by_contra hne
    exact h.tables.one e (toNat_pos hne) he hp
  rw [he0, h.tables.table_eq]
  exact hused rfl L.own_table

end

section

variable {L : KernelLayout} {c : Computer} {m : Machine} {heap : Heap}

/-- The pages of the one table from `f` on are mapped, to frames behind the memory code's. -/
def MappedBehind (L : KernelLayout) (m : Machine) (f : ℕ) : Prop :=
  ∀ i, f ≤ i → i < 1024 → ∃ g, L.pages + 2 ≤ g ∧ g < 2 ^ 20 ∧ translate m (pageAddr i) = some (pageAddr g)

/-- A byte of such a page is stored behind the memory code's. -/
theorem KernelAt.store8_behind (h : KernelAt L c m heap) {f : ℕ} (hmapped : MappedBehind L m f) {a : UInt32}
    (hlo : f ≤ a.toNat / 0x1000) (hhi : a.toNat < 0x400000) (b : UInt8) :
    ∃ mem, c.store8 a b = some { c with mem } ∧ KernelAt L { c with mem } m heap := by
  obtain ⟨g, hg, hg20, htrans⟩ := hmapped (a.toNat / 0x1000) hlo (by omega)
  rw [← h.translate, Computer.translate] at htrans
  have hwalk : c.walk a = some (pageAddr g + (a &&& 0xFFF)) := by
    rw [Computer.walk_on h.on, Computer.translate, translateIn_page, htrans, Option.map_some]
  have hlow : (a &&& 0xFFF).toNat = a.toNat % 0x1000 := toNat_and_low a 12 (by decide)
  have hto : (pageAddr g).toNat = g * 0x1000 := pageAddr_toNat hg20
  have hsum : (pageAddr g + (a &&& 0xFFF)).toNat = g * 0x1000 + a.toNat % 0x1000 := by
    rw [toNat_add_of_lt (by omega), hto, hlow]
  refine ⟨Function.update c.mem (pageAddr g + (a &&& 0xFFF)) b, ?_,
    h.changeAbove fun x hx => Function.update_of_ne ?_ _ _⟩
  · rw [Computer.store8, Paged.store8, hwalk, Option.map_some, Option.map_some]
  · rintro rfl
    omega

/-- Behind the first 4 MiB there is no page to store to. -/
theorem KernelAt.store8_far (h : KernelAt L c m heap) {a : UInt32} (ha : 0x400000 ≤ a.toNat) (b : UInt8) :
    c.store8 a b = none := by
  have hlt := a.toNat_lt
  rw [Computer.store8, Paged.store8, Computer.walk_on h.on, Computer.translate, translateIn_page]
  have hnone := h.tables.translate_far (i := a.toNat / 0x1000) (by omega) (by omega)
  rw [← h.translate, Computer.translate] at hnone
  rw [hnone, Option.map_none, Option.map_none, Option.map_none]

/-- **The `memset` of `table_create`** runs to the end of what is mapped, and faults: its third argument is
the address that it should end at, not a length. -/
theorem KernelAt.memset_none (h : KernelAt L c m heap) {f : ℕ} (hf : f < 1024) (hlen : 0x3FC000 < 0x2000 * f)
    (hmapped : MappedBehind L m f) : c.memset (pageAddr f) 0 (pageAddr f + 0x4000) = none := by
  have hto := pageAddr_toNat (i := f) (by omega)
  have hsize : (pageAddr f + 0x4000).toNat = f * 0x1000 + 0x4000 := by
    have hsum : (pageAddr f).toNat + (0x4000 : UInt32).toNat < 2 ^ 32 := by
      rw [hto]
      simp only [UInt32.reduceToNat]
      omega
    rw [toNat_add_of_lt hsum, hto]
    rfl
  have haddr : ∀ i, i < 0x400000 → (pageAddr f + UInt32.ofNat i).toNat = f * 0x1000 + i := by
    intro i hi
    have hin : (UInt32.ofNat i).toNat = i := toNat_ofNat_of_lt (by omega)
    have hsum : (pageAddr f).toNat + (UInt32.ofNat i).toNat < 2 ^ 32 := by omega
    rw [toNat_add_of_lt hsum, hto, hin]
  rw [Computer.memset, hsize]
  refine forUpM_none (fun _ c' => KernelAt L c' m heap) (j := 0x400000 - f * 0x1000)
    (fun c' h' => h'.store8_far (by rw [haddr _ (by omega)]; omega) 0) _ 0 c h (Nat.zero_le _) (by omega) ?_
  intro i c' _ hi h'
  have ha := haddr i (by omega)
  obtain ⟨mem, hmem, h''⟩ := h'.store8_behind hmapped (a := pageAddr f + UInt32.ofNat i) (by omega)
    (by omega) 0
  exact ⟨_, hmem, h''⟩

/-- **`page_map` of a page without a table** does not return, with the first free frame so far up. -/
theorem KernelAt.pageMap_none (h : KernelAt L c m heap) {f : ℕ} {v frame : UInt32}
    (hfree : f ∈ freeFrames m) (hleast : ∀ j ∈ freeFrames m, f ≤ j) (hf0 : 0 < f) (hf : f < 1024)
    (hlen : 0x3FC000 < 0x2000 * f) (hmapped : MappedBehind L m f) (hv : PageAligned v)
    (hframe : PageAligned frame) (hfar : 0 < (dirGet v).toNat) : c.pageMap frame v 3 0 = none := by
  have hpde := h.load_word (Or.inl rfl) (dirGet_lt v)
  have hnot := h.tables.one _ hfar (dirGet_lt v)
  obtain ⟨c', hc', h'⟩ := h.allocFrame hfree hleast
  have hcond : ¬ (v &&& 0xFFF ≠ 0 ∨ frame &&& 0xFFF ≠ 0) := by
    rintro (hc | hc)
    · exact hc hv
    · exact hc hframe
  have hne : pageAddr f ≠ 0 := by
    intro h0
    have hto := pageAddr_toNat (i := f) (by omega)
    rw [h0, UInt32.toNat_zero] at hto
    omega
  have hmemset := h'.memset_none hf hlen hmapped
  have hload : c.load32 (pdeAddr (c.directoryOf 0) v) = some (pageWord m.mem L.directory (dirGet v)) := by
    show c.load32 (c.cr3 + 4 * dirGet v) = _
    rw [h.cr3_eq]
    exact hpde
  rw [Computer.pageMap, if_neg hcond, Computer.pageMapTable, hload, Option.bind_some, if_pos hnot,
    Computer.tableCreate, hc', Option.bind_some, if_neg hne, Computer.tableFill, if_neg h'.on, hmemset]
  rfl

/-- **The mapping loop comes to such a page** and does not return: the next free frame is taken for it and
the one after that for its table. -/
theorem KernelAt.mapFrom_none (h : KernelAt L c m heap) (addr : UInt32) {stop : UInt32} (fuel : ℕ) {f : ℕ}
    (hstop : 0x400000 < stop.toNat) (hfree : ∀ j ∈ freeFrames m, f ≤ j)
    (hcard : L.frames.count < (freeFrames m).card + 1023) (htwo : 2 ≤ (freeFrames m).card)
    (hlen : 0x3FC000 < 0x2000 * f) (hmapped : MappedBehind L m f) :
    c.heapMapFrom addr stop (fuel + 1) (pageAddr 1024) = none := by
  have hcond : pageAddr 1024 < stop := by
    rw [UInt32.lt_iff_toNat_lt]
    exact hstop
  have hsize : m.frameBitmap.size ≠ 0xFFFFFFFF := by
    intro he
    have hsz := h.tables.size_eq
    have hlt := L.count_lt.1
    rw [he, show (0xFFFFFFFF : UInt32).toNat = 2 ^ 32 - 1 from rfl] at hsz
    omega
  obtain ⟨g, hg, -, herase, hless⟩ := frameAlloc_least hsize (Finset.card_pos.1 (by omega))
  obtain ⟨c₁, hc₁, h₁⟩ := h.allocFrame hg fun j hj => by
    by_cases hjg : j = g
    · omega
    · exact (hless j (Finset.mem_erase.2 ⟨hjg, hj⟩)).le
  have hcard₁ := Finset.card_erase_of_mem hg
  obtain ⟨g', hg', -, -, hless'⟩ := frameAlloc_least (m := frameSet (pageAddr g) m) hsize
    (Finset.card_pos.1 (by rw [herase]; omega))
  have hleast' : ∀ j ∈ freeFrames (frameSet (pageAddr g) m), g' ≤ j := fun j hj => by
    by_cases hjg : j = g'
    · omega
    · exact (hless' j (Finset.mem_erase.2 ⟨hjg, hj⟩)).le
  have hf' : f ≤ g' := hfree g' (Finset.mem_of_mem_erase (herase ▸ hg'))
  have hlt : g' < 1024 := by
    have hsub : freeFrames (frameSet (pageAddr g) m) ⊆ Finset.Ico g' L.frames.count := fun j hj =>
      Finset.mem_Ico.2 ⟨hleast' j hj, (h₁.frames_lt hj).1⟩
    have hle := Finset.card_le_card hsub
    have hgc := (h₁.frames_lt hg').1
    rw [herase, Nat.card_Ico] at hle
    omega
  have hnone : c₁.pageMap (pageAddr g) (pageAddr 1024) 3 0 = none :=
    h₁.pageMap_none hg' hleast' (by omega) hlt (by omega) (fun i hi => hmapped i (by omega)) (by decide)
      (pageAddr_aligned (h.frames_lt hg).2.1) (by decide)
  rw [Computer.heapMapFrom, if_pos hcond, hc₁, Option.bind_some, hnone]
  rfl

/-- **`heap_alloc` of a block that reaches behind the first 4 MiB** does not return. -/
theorem KernelAt.heapAlloc_none (h : KernelAt L c m heap) {a f : ℕ} {size index : UInt32}
    (hsize : PageAligned size) (hfind : c.heapEntry size = some index)
    (hin : index.toNat + max (size / 0x1000).toNat 1 ≤ L.entries.count) (hok : EntryOk heap index)
    (ha : (entryAddr heap index).toNat / 0x1000 = a) (hlow : L.pages + 2 ≤ a) (ha1024 : a ≤ 1024)
    (hend : 0x400000 < (entryAddr heap index + size).toNat)
    (hfree : freeFrames m = Finset.Ico f L.frames.count)
    (hlo : L.pages + 2 ≤ f) (hlen : 0x3FC000 < 0x2000 * f) (hf : f + (1024 - a) < 1023)
    (hcount : f + (1024 - a) + 2 ≤ L.frames.count) (hmapped : MappedBehind L m f) :
    c.heapAlloc size c.kernelHeap = none := by
  obtain ⟨hstart, -, hbitmap⟩ := h.load_heap
  obtain ⟨haddr, ha0⟩ := h.entry_page hok
  rw [ha] at haddr ha0
  have hindex : (index + size / 0x1000).toNat ≤ L.entries.count := by
    have hw := L.entries.words
    rw [toNat_add_of_lt (by omega)]
    omega
  obtain ⟨mem, hmark, hat, hout⟩ := h.heapAt.bitmap.map h.entries_seen index hindex 1
  have h₁ := h.changeEntries hat hout
  have hcard : (freeFrames m).card = L.frames.count - f := by rw [hfree, Nat.card_Ico]
  obtain ⟨c', m', hrun, -, h', hpages⟩ := KernelAt.mapTo (entryAddr heap index) (entryAddr heap index + size)
    (2 ^ 32 - (1024 - a) - 1 + 1) (le_refl 1024) (by omega) (1024 - a) a _ _ ha0 (by omega) h₁
    (fun j haj _ hown => by have := hown.2; omega)
    (show 1024 - a ≤ (freeFrames m).card by omega)
  have hsub : ∀ j ∈ freeFrames m', f ≤ j := fun j hj => by
    have hmem := hpages.free hj
    exact (Finset.mem_Ico.1 (hfree ▸ hmem)).1
  have hleft : (freeFrames m').card + (1024 - a) = (freeFrames m).card := hpages.card
  have hcond : ¬ size &&& 0xFFF ≠ 0 := not_not.2 hsize
  have hkeep : ¬ (heap.start - index * 0x1000 = 0 ∨ heap.start - index * 0x1000 > heap.start) :=
    hok.not_refused
  rw [Computer.heapEntry, hbitmap, Option.bind_some] at hfind
  rw [Computer.heapAlloc, if_neg h.heap_ne_zero, if_neg hcond, hbitmap, Option.bind_some, hfind,
    Option.bind_some, hstart, Option.bind_some, if_neg hkeep, hmark, Option.bind_some]
  show CometOS.Computer.heapMapFrom (entryAddr heap index) (entryAddr heap index + size) (2 ^ 32)
    (entryAddr heap index) { c with mem } = none
  rw [show 2 ^ 32 - (1024 - a) - 1 + 1 + (1024 - a) = 2 ^ 32 by omega, ← haddr] at hrun
  rw [hrun]
  refine h'.mapFrom_none _ _ hend hsub (by omega) (by omega) hlen fun i hfi hi => ?_
  rw [h'.tables.translate hi]
  by_cases hia : i < a
  · obtain ⟨g, hg, hg20, htrans⟩ := hmapped i hfi hi
    rw [h.tables.translate hi] at htrans
    rw [hpages.others i hi (Or.inl hia)]
    exact ⟨g, hg, hg20, htrans⟩
  · obtain ⟨g, hg, hword⟩ := hpages.pages i (by omega) hi
    have hgm := Finset.mem_Ico.1 (hfree ▸ (show g ∈ freeFrames m from hg))
    have hlt := L.count_lt.1
    refine ⟨g, by omega, by omega, ?_⟩
    rw [hword, if_pos (present_or _ _), phyGet_or_flags (pageAddr_aligned (by omega))]

end

end CometOS
