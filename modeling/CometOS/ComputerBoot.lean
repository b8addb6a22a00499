import CometOS.ComputerFrames

/-!
# Booting in one memory

`paging_initialize` from the first `kmalloc` on: where the structures come to lie, what the creators leave
in memory, and the three loops.  The frame bitmap's words run over what comes behind them, so the loops are
followed as far as the words they use are nobody else's (`BootClear`).
-/

namespace CometOS

open ByteMemory Loop Paged Word32

/-! ### Where the structures come to lie -/

/-- The page behind the one an address is in. -/
def nextPage (a : ℕ) : ℕ := (a / 0x1000 + 1) * 0x1000

/-- The addresses of the boot structures, and `kernel_pointer` behind them. -/
structure BootPlan where
  bitmap : ℕ
  entries : ℕ
  heap : ℕ
  heapBitmap : ℕ
  heapEntries : ℕ
  kernelPointer : ℕ

/-- Each structure is given the next page, but for the `heap_t`, which comes right behind the frame
bitmap's words; the two regions for words are a thirty-second of what they should be. -/
def bootPlan (memUpper kernelPointer : ℕ) : BootPlan :=
  let bitmap := nextPage kernelPointer
  let entries := nextPage (bitmap + 8)
  let heap := entries + memUpper / 4 / 0x20
  let heapBitmap := nextPage (heap + 4)
  let heapEntries := nextPage (heapBitmap + 8)
  { bitmap, entries, heap, heapBitmap, heapEntries
    kernelPointer := heapEntries + memUpper / 4 / 0x20 }

/-- The pages up to `kernel_pointer`, once the boot structures are made. -/
def bootPageCount (memUpper kernelPointer : UInt32) : ℕ :=
  ((bootPlan memUpper.toNat kernelPointer.toNat).kernelPointer + 0xFFF) / 0x1000

/-- The frames that `paging_initialize` uses: those of the pages, the directory's and the tables'. -/
def bootFrameCount (memUpper kernelPointer : UInt32) : ℕ :=
  bootPageCount memUpper kernelPointer + 1 + regions (bootPageCount memUpper kernelPointer)

/-- Memory holds the kernel, the boot structures, the directory and the tables, and the words of the two
bitmaps end inside the address space.  The first page is never the kernel's: it is loaded at 1 MiB. -/
structure BootRoom (memUpper kernelPointer : UInt32) : Prop where
  loaded : 0x1000 ≤ kernelPointer.toNat
  small : memUpper.toNat < 2 ^ 31
  ends : (bootPlan memUpper.toNat kernelPointer.toNat).heapEntries + memUpper.toNat < 2 ^ 32
  frames : bootFrameCount memUpper kernelPointer ≤ memUpper.toNat / 4
  addresses : bootFrameCount memUpper kernelPointer ≤ 2 ^ 20

instance (memUpper kernelPointer : UInt32) : Decidable (BootRoom memUpper kernelPointer) :=
  decidable_of_iff (_ ∧ _ ∧ _ ∧ _ ∧ _)
    ⟨fun h => ⟨h.1, h.2.1, h.2.2.1, h.2.2.2.1, h.2.2.2.2⟩, fun h => ⟨h.1, h.2, h.3, h.4, h.5⟩⟩

/-- The words of the first `count` frames are not overwritten: those of the directory and the tables do
not lie on the `heap_t` or its `bitmap_t`, and they end before the directory. -/
structure BootClear (memUpper kernelPointer : UInt32) (count : ℕ) : Prop where
  heap : (bootPlan memUpper.toNat kernelPointer.toNat).entries + 4 * count ≤
      (bootPlan memUpper.toNat kernelPointer.toNat).heap ∨
    (bootPlan memUpper.toNat kernelPointer.toNat).heap + sizeofHeap ≤
      (bootPlan memUpper.toNat kernelPointer.toNat).entries + 4 * bootPageCount memUpper kernelPointer
  bitmap : (bootPlan memUpper.toNat kernelPointer.toNat).entries + 4 * count ≤
      (bootPlan memUpper.toNat kernelPointer.toNat).heapBitmap ∨
    (bootPlan memUpper.toNat kernelPointer.toNat).heapBitmap + 8 ≤
      (bootPlan memUpper.toNat kernelPointer.toNat).entries + 4 * bootPageCount memUpper kernelPointer
  directory : (bootPlan memUpper.toNat kernelPointer.toNat).entries + 4 * count ≤
    bootPageCount memUpper kernelPointer * 0x1000

instance (memUpper kernelPointer : UInt32) (count : ℕ) :
    Decidable (BootClear memUpper kernelPointer count) :=
  decidable_of_iff (_ ∧ _ ∧ _) ⟨fun h => ⟨h.1, h.2.1, h.2.2⟩, fun h => ⟨h.1, h.2, h.3⟩⟩

section Plan

variable (memUpper k : ℕ)

theorem bootPlan_bitmap : (bootPlan memUpper k).bitmap = nextPage k := rfl

theorem bootPlan_entries : (bootPlan memUpper k).entries = nextPage k + 0x1000 := by
  show nextPage (nextPage k + 8) = _
  unfold nextPage
  omega

theorem bootPlan_heap : (bootPlan memUpper k).heap = nextPage k + 0x1000 + memUpper / 128 := by
  show (bootPlan memUpper k).entries + memUpper / 4 / 0x20 = _
  rw [bootPlan_entries, Nat.div_div_eq_div_mul]

theorem bootPlan_heapBitmap :
    (bootPlan memUpper k).heapBitmap = nextPage ((bootPlan memUpper k).heap + 4) := rfl

theorem bootPlan_heapEntries :
    (bootPlan memUpper k).heapEntries = (bootPlan memUpper k).heapBitmap + 0x1000 := by
  show nextPage ((bootPlan memUpper k).heapBitmap + 8) = _
  rw [bootPlan_heapBitmap]
  unfold nextPage
  omega

theorem bootPlan_kernelPointer :
    (bootPlan memUpper k).kernelPointer = (bootPlan memUpper k).heapEntries + memUpper / 128 := by
  show (bootPlan memUpper k).heapEntries + memUpper / 4 / 0x20 = _
  rw [Nat.div_div_eq_div_mul]

/-- The structures come one after the other. -/
theorem bootPlan_rising : k < (bootPlan memUpper k).bitmap ∧
    (bootPlan memUpper k).bitmap % 0x1000 = 0 ∧
    (bootPlan memUpper k).entries = (bootPlan memUpper k).bitmap + 0x1000 ∧
    (bootPlan memUpper k).heap = (bootPlan memUpper k).entries + memUpper / 128 ∧
    (bootPlan memUpper k).heap + 4 < (bootPlan memUpper k).heapBitmap ∧
    (bootPlan memUpper k).heapBitmap % 0x1000 = 0 ∧
    (bootPlan memUpper k).heapEntries = (bootPlan memUpper k).heapBitmap + 0x1000 ∧
    (bootPlan memUpper k).kernelPointer = (bootPlan memUpper k).heapEntries + memUpper / 128 := by
  refine ⟨?_, ?_, ?_, ?_, ?_, ?_, bootPlan_heapEntries memUpper k,
    bootPlan_kernelPointer memUpper k⟩
  · rw [bootPlan_bitmap]
    unfold nextPage
    omega
  · rw [bootPlan_bitmap]
    unfold nextPage
    omega
  · rw [bootPlan_entries, bootPlan_bitmap]
  · rw [bootPlan_heap, bootPlan_entries]
  · rw [bootPlan_heapBitmap]
    unfold nextPage
    omega
  · rw [bootPlan_heapBitmap]
    unfold nextPage
    omega

end Plan

theorem ponterMoveInt_page (size : UInt32) {k : UInt32} (hk : 0x1000 ≤ k.toNat)
    (h : nextPage k.toNat < 2 ^ 32) :
    (ponterMoveInt size 1 k).1 = UInt32.ofNat (nextPage k.toNat) := by
  have hp := toNat_and_page k
  have hne : k &&& 0xFFFFF000 ≠ 0 := by
    intro h0
    rw [h0, UInt32.toNat_zero] at hp
    omega
  unfold ponterMoveInt
  simp only [hne, ne_eq, not_false_eq_true, and_self, if_true]
  apply eq_of_toNat
  unfold nextPage at *
  rw [toNat_ofNat_of_lt h, toNat_add_of_lt (by rw [hp]; simp only [UInt32.reduceToNat]; omega), hp]
  simp only [UInt32.reduceToNat]
  omega

/-! ### What the creators leave in memory -/

section Create

variable {c : Computer}

/-- **`bitmap_create`** while paging is off: the `bitmap_t`, and words that are zero. -/
theorem Computer.bitmapCreate_spec (hoff : c.pagingState = 0) {size : UInt32} (p : BitmapPlace)
    (haddr : (CometOS.ponterMoveInt sizeofBitmap 1 c.kernelPointer).1 = p.addr)
    (hentries : (CometOS.ponterMoveInt (size / 0x20) 1 (p.addr + sizeofBitmap)).1 = p.entries)
    (hcount : size.toNat = p.count) :
    ∃ mem b, c.bitmapCreate size =
        some (p.addr, { c with kernelPointer := p.entries + size / 0x20, mem }) ∧
      BitmapAt p mem b ∧ b.size = size ∧ (∀ i : UInt32, i.toNat < p.count → b.words i = 0) ∧
      (∀ a, p.Outside a 1 → mem a = c.mem a) ∧ read32 mem (p.addr + 4) = size := by
  have hh := p.header
  have hw := p.words
  have hs := p.size_toNat
  obtain ⟨mem₀, hmem₀⟩ : ∃ mem₀, write32 (write32 c.mem (p.addr + 4) size) p.addr p.entries = mem₀ :=
    ⟨_, rfl⟩
  have hap : Apart p.addr 4 (p.addr + 4) 4 := apart_of_le (by decide) (by omega) (by omega)
  have hsize : read32 mem₀ (p.addr + 4) = size := by
    rw [← hmem₀, read32_write32_of_apart _ _ hap, read32_write32_same]
  have hat : BitmapAt p mem₀ ⟨p.addr, p.entries, size, fun i => read32 mem₀ (p.entries + 4 * i)⟩ := by
    refine ⟨?_, ?_, hcount, fun _ _ => rfl⟩
    · rw [← hmem₀, read32_write32_same]
    · rw [hsize]
      exact UInt32.le_refl size
  obtain ⟨c₀, hc₀⟩ : ∃ c₀ : Computer, c₀ = { c with
    kernelPointer := p.entries + size / 0x20, mem := mem₀ } := ⟨_, rfl⟩
  have hoff₀ : c₀.pagingState = 0 := by rw [hc₀, hoff]
  have hmem : c₀.mem = mem₀ := by rw [hc₀]
  rw [← hmem] at hat hsize
  obtain ⟨mem, hmap, hat', hout⟩ := hat.map (p.seen_off hoff₀) 0
    (show size.toNat ≤ p.count by rw [hcount]) 0
  obtain ⟨hbsize, hbwords⟩ := bitmapMap_words 0 size 0
    ⟨p.addr, p.entries, size, fun i => read32 c₀.mem (p.entries + 4 * i)⟩
  have hload := (p.seen_off hoff₀).load_size
  rw [hsize] at hload
  have hdir := fun (c : Computer) (h : c.pagingState = 0) (a v : UInt32) =>
    c.store32_of_direct (Computer.direct_off h a 4) v
  refine ⟨mem, _, ?_, hat', hbsize, fun i hi => ?_, fun a ha => ?_, ?_⟩
  · simp only [Computer.bitmapCreate, Computer.ponterMoveInt, haddr, ponterMoveInt_snd]
    rw [hdir { c with kernelPointer := p.addr + sizeofBitmap } hoff, Option.bind_some]
    simp only [hentries]
    rw [hdir { c with
      kernelPointer := p.entries + size / 0x20, mem := write32 c.mem (p.addr + 4) size } hoff,
      Option.bind_some]
    simp only [hmem₀]
    rw [← hc₀, hmap, Option.map_some, hc₀]
  · rw [hbwords i, if_pos ⟨UInt32.le_refl _, UInt32.le_iff_toNat_le.2 (Nat.zero_le _),
      UInt32.lt_iff_toNat_lt.2 (by rw [hcount]; exact hi)⟩]
  · rw [hout a ha.beyond, hmem, ← hmem₀]
    have ha4 := (ha.apart Nat.one_pos (by decide) p.within_addr).2
    have ha8 := (ha.apart Nat.one_pos (by decide) p.within_size).2
    rw [write32_of_far _ _ _ ha4, write32_of_far _ _ _ ha8]
  · rw [← hsize]
    refine read32_congr fun i hi => hout _ (Or.inl ?_)
    rw [toNat_add_of_lt (by omega)]
    omega

/-- The flags' byte and the three words of a `heap_t`. -/
structure HeapAt (heap : UInt32) (q : BitmapPlace) (mem : Mem) (h : Heap) : Prop where
  start_eq : read32 mem heap = h.start
  stop_eq : read32 mem (heap + 4) = h.stop
  bitmap_eq : read32 mem (heap + 9) = q.addr
  bitmap : BitmapAt q mem h.bitmap

/-- **`heap_create`** while paging is off.  Its `heap_t` is as it should be if it ends before the heap's
`bitmap_t`; the words of the bitmap are zero in any case. -/
theorem Computer.heapCreate_spec (hoff : c.pagingState = 0) (start stop : UInt32) (rw' usermode : Bool)
    (q : BitmapPlace)
    (haddr : (CometOS.ponterMoveInt sizeofBitmap 1 (c.kernelPointer + sizeofHeapPointer)).1 = q.addr)
    (hentries : (CometOS.ponterMoveInt (pointerQuarter start stop / 0x20) 1
      (q.addr + sizeofBitmap)).1 = q.entries)
    (hcount : (pointerQuarter start stop).toNat = q.count)
    (hbelow : c.kernelPointer.toNat + sizeofHeap ≤ q.entries.toNat) :
    ∃ mem h, c.heapCreate start stop rw' usermode = some (c.kernelPointer,
        { c with kernelPointer := q.entries + pointerQuarter start stop / 0x20, mem }) ∧
      h.start = start &&& 0xFFFFF000 ∧
      h.stop = (if stop &&& 0xFFFFF000 ≠ stop then (stop &&& 0xFFFFF000) + 0x1000
        else stop &&& 0xFFFFF000) ∧
      h.bitmap.size = pointerQuarter start stop ∧
      (∀ i : UInt32, i.toNat < q.count → h.bitmap.words i = 0) ∧
      (c.kernelPointer.toNat + sizeofHeap ≤ q.addr.toNat → HeapAt c.kernelPointer q mem h) ∧
      (∀ i : UInt32, i.toNat < q.count → read32 mem (q.entries + 4 * i) = 0) ∧
      ∀ a, q.Outside a 1 → sizeofHeap ≤ (a - c.kernelPointer).toNat → mem a = c.mem a := by
  have hh := q.header
  have hw := q.words
  have hstop := q.stop_eq
  have h13 : sizeofHeap = 13 := rfl
  have hk := fun (i : UInt32) (hi : i.toNat ≤ 13) => (toNat_add_of_lt (by omega) :
    (c.kernelPointer + i).toNat = c.kernelPointer.toNat + i.toNat)
  have hk4 := hk 4 (by decide)
  have hk8 := hk 8 (by decide)
  have hk9 := hk 9 (by decide)
  simp only [UInt32.reduceToNat] at hk4 hk8 hk9
  obtain ⟨e, he⟩ : ∃ e, (if stop &&& 0xFFFFF000 ≠ stop then (stop &&& 0xFFFFF000) + 0x1000
    else stop &&& 0xFFFFF000) = e := ⟨_, rfl⟩
  obtain ⟨m₂, hm₂⟩ : ∃ m₂, write32 (write32 c.mem c.kernelPointer (start &&& 0xFFFFF000))
    (c.kernelPointer + 4) e = m₂ := ⟨_, rfl⟩
  obtain ⟨m₃, hm₃⟩ : ∃ m₃, Function.update m₂ (c.kernelPointer + 8)
    (Computer.setFlag usermode 2 (Computer.setFlag rw' 1 (m₂ (c.kernelPointer + 8)))) = m₃ := ⟨_, rfl⟩
  obtain ⟨mem, b, hcreate, hat, hsize, hwords, hout, -⟩ := Computer.bitmapCreate_spec
    (c := { c with kernelPointer := c.kernelPointer + sizeofHeapPointer, mem := m₃ }) hoff q haddr hentries
    hcount
  have hlast : ∀ a : UInt32, a.toNat + 4 ≤ c.kernelPointer.toNat + 9 ∨
      c.kernelPointer.toNat + 13 ≤ a.toNat → a.toNat + 4 ≤ 2 ^ 32 →
      read32 (write32 mem (c.kernelPointer + 9) q.addr) a = read32 mem a := by
    intro a ha hle
    refine read32_write32_of_apart _ _ ?_
    rcases ha with hlt | hge
    · exact (apart_of_le (by decide) (by omega) (by omega)).symm
    · exact apart_of_le (by decide) (by omega) (by omega)
  refine ⟨write32 mem (c.kernelPointer + 9) q.addr,
    ⟨c.kernelPointer, start &&& 0xFFFFF000, e, rw', usermode, b⟩, ?_, rfl, he.symm, hsize, hwords,
    fun hbefore => ?_, fun i hi => ?_, fun a ha hfar => ?_⟩
  · have hd32 := fun (c : Computer) (h : c.pagingState = 0) (a v : UInt32) =>
      c.store32_of_direct (Computer.direct_off h a 4) v
    simp only [Computer.heapCreate, Computer.ponterMoveInt, ponterMoveInt_unaligned, he]
    rw [hd32 { c with kernelPointer := c.kernelPointer + sizeofHeapPointer } hoff, Option.bind_some,
      hd32 { c with
        kernelPointer := c.kernelPointer + sizeofHeapPointer
        mem := write32 c.mem c.kernelPointer (start &&& 0xFFFFF000) } hoff, Option.bind_some]
    simp only [hm₂]
    rw [Computer.load8, load8_direct _ (Computer.direct_off (c := { c with
      kernelPointer := c.kernelPointer + sizeofHeapPointer, mem := m₂ }) hoff _ _), Option.bind_some,
      Computer.store8, store8_direct _ _ (Computer.direct_off (c := { c with
      kernelPointer := c.kernelPointer + sizeofHeapPointer, mem := m₂ }) hoff _ _), Option.map_some,
      Option.bind_some]
    simp only [hm₃]
    rw [hcreate, Option.bind_some, hd32 { c with
      kernelPointer := q.entries + pointerQuarter start stop / 0x20, mem := mem } hoff, Option.map_some]
  · -- the `heap_t` lies before what `bitmap_create` has written
    have hbytes : ∀ a : UInt32, c.kernelPointer.toNat ≤ a.toNat →
        a.toNat + 4 ≤ c.kernelPointer.toNat + 13 → read32 mem a = read32 m₃ a := by
      intro a ha hle
      refine read32_congr fun i hi => hout _ (Or.inl ?_)
      rw [toNat_add_of_lt (by omega)]
      omega
    refine ⟨?_, ?_, read32_write32_same _ _ _, ?_⟩
    · rw [hlast _ (by omega) (by omega), hbytes _ le_rfl (by omega), ← hm₃, read32_update_of_far _ _ (by
        rw [toNat_sub_of_le (by omega)]; omega), ← hm₂, read32_write32_of_apart _ _
          (apart_of_le (by decide) (by omega) (by omega)).symm, read32_write32_same]
    · rw [hlast _ (by omega) (by omega), hbytes _ (by omega) (by omega), ← hm₃, read32_update_of_far _ _ (by
        rw [toNat_sub_of_le (by omega)]; omega), ← hm₂, read32_write32_same]
    · refine hat.write (a := c.kernelPointer + 9) (n := 4) (Or.inl (by omega)) (by decide) fun x hx =>
        write32_of_far _ _ _ hx
  · have hi' := q.entry_toNat hi
    rw [hlast _ (by omega) (by omega), hat.words_eq i hi, hwords i hi]
  · have hdist : ∀ i : UInt32, i.toNat + 4 ≤ 13 → 4 ≤ (a - (c.kernelPointer + i)).toNat := by
      intro i hi
      have hai := hk i (by omega)
      have hlt := a.toNat_lt
      have hklt := c.kernelPointer.toNat_lt
      rw [h13] at hfar
      simp only [UInt32.toNat_sub] at *
      omega
    have hne : a ≠ c.kernelPointer + 8 := by
      rintro rfl
      rw [show c.kernelPointer + 8 - c.kernelPointer = 8 by grind] at hfar
      exact absurd hfar (by decide)
    rw [write32_of_far _ _ _ (hdist 9 (by decide)), hout a ha, ← hm₃]
    show Function.update m₂ (c.kernelPointer + 8) _ a = _
    rw [Function.update_of_ne hne, ← hm₂, write32_of_far _ _ _ (hdist 4 (by decide))]
    have h0 := hdist 0 (by decide)
    rw [UInt32.add_zero] at h0
    rw [write32_of_far _ _ _ h0]

end Create

end CometOS
