import CometOS.ComputerBoot

/-!
# `paging_initialize` in one memory

With memory enough (`BootRoom`), and the words that the loops use nobody else's (`BootClear`), the frames
below `kernel_pointer`, the directory and the tables are marked, and the tables are those of `TablesAt`.
-/

namespace CometOS

open ByteMemory Loop Paged Word32

/-! ### The bitmaps -/

section

variable {memUpper kernelPointer : UInt32}

theorem BootRoom.bounds (h : BootRoom memUpper kernelPointer) :
    (bootPlan memUpper.toNat kernelPointer.toNat).entries + memUpper.toNat < 2 ^ 32 ∧
      (bootPlan memUpper.toNat kernelPointer.toNat).heapEntries + memUpper.toNat < 2 ^ 32 := by
  have hends := h.ends
  obtain ⟨-, -, -, hheap, hheapBitmap, -, hheapEntries, -⟩ :=
    bootPlan_rising memUpper.toNat kernelPointer.toNat
  omega

/-- The frame bitmap, with the words that are the first `count` frames'. -/
def framePlace (h : BootRoom memUpper kernelPointer) (count : ℕ) (hcount : count ≤ memUpper.toNat / 4) :
    BitmapPlace where
  addr := UInt32.ofNat (bootPlan memUpper.toNat kernelPointer.toNat).bitmap
  entries := UInt32.ofNat (bootPlan memUpper.toNat kernelPointer.toNat).entries
  count := count
  header := by
    obtain ⟨-, -, hentries, -⟩ := bootPlan_rising memUpper.toNat kernelPointer.toNat
    have hb := h.bounds
    rw [toNat_ofNat_of_lt (by omega), toNat_ofNat_of_lt (by omega)]
    omega
  words := by
    have hb := h.bounds
    rw [toNat_ofNat_of_lt (by omega)]
    omega

/-- The heap's bitmap, likewise. -/
def heapPlace (h : BootRoom memUpper kernelPointer) (count : ℕ) (hcount : count ≤ memUpper.toNat / 4) :
    BitmapPlace where
  addr := UInt32.ofNat (bootPlan memUpper.toNat kernelPointer.toNat).heapBitmap
  entries := UInt32.ofNat (bootPlan memUpper.toNat kernelPointer.toNat).heapEntries
  count := count
  header := by
    obtain ⟨-, -, -, -, -, -, hentries, -⟩ :=
      bootPlan_rising memUpper.toNat kernelPointer.toNat
    have hb := h.bounds
    rw [toNat_ofNat_of_lt (by omega), toNat_ofNat_of_lt (by omega)]
    omega
  words := by
    have hb := h.bounds
    rw [toNat_ofNat_of_lt (by omega)]
    omega

theorem framePlace_toNat (h : BootRoom memUpper kernelPointer) (count : ℕ)
    (hcount : count ≤ memUpper.toNat / 4) :
    (framePlace h count hcount).addr.toNat = (bootPlan memUpper.toNat kernelPointer.toNat).bitmap ∧
      (framePlace h count hcount).entries.toNat =
        (bootPlan memUpper.toNat kernelPointer.toNat).entries ∧
      (framePlace h count hcount).count = count := by
  have hb := h.bounds
  obtain ⟨-, -, hentries, -⟩ := bootPlan_rising memUpper.toNat kernelPointer.toNat
  exact ⟨toNat_ofNat_of_lt (by omega), toNat_ofNat_of_lt (by omega), rfl⟩

theorem heapPlace_toNat (h : BootRoom memUpper kernelPointer) (count : ℕ)
    (hcount : count ≤ memUpper.toNat / 4) :
    (heapPlace h count hcount).addr.toNat = (bootPlan memUpper.toNat kernelPointer.toNat).heapBitmap ∧
      (heapPlace h count hcount).entries.toNat =
        (bootPlan memUpper.toNat kernelPointer.toNat).heapEntries ∧
      (heapPlace h count hcount).count = count := by
  have hb := h.bounds
  obtain ⟨-, -, -, -, -, -, hentries, -⟩ :=
    bootPlan_rising memUpper.toNat kernelPointer.toNat
  exact ⟨toNat_ofNat_of_lt (by omega), toNat_ofNat_of_lt (by omega), rfl⟩

/-- The `heap_t`'s address. -/
def heapAddr (memUpper kernelPointer : UInt32) : UInt32 :=
  UInt32.ofNat (bootPlan memUpper.toNat kernelPointer.toNat).heap

theorem heapAddr_toNat (h : BootRoom memUpper kernelPointer) :
    (heapAddr memUpper kernelPointer).toNat =
      (bootPlan memUpper.toNat kernelPointer.toNat).heap := by
  have hb := h.bounds
  obtain ⟨-, -, -, hheap, hheapBitmap, -, hheapEntries, -⟩ :=
    bootPlan_rising memUpper.toNat kernelPointer.toNat
  exact toNat_ofNat_of_lt (by omega)

/-- Where `kernel_pointer` ends up. -/
def bootPointer (memUpper kernelPointer : UInt32) : UInt32 :=
  UInt32.ofNat (bootPlan memUpper.toNat kernelPointer.toNat).kernelPointer

theorem bootPointer_toNat (h : BootRoom memUpper kernelPointer) :
    (bootPointer memUpper kernelPointer).toNat =
      (bootPlan memUpper.toNat kernelPointer.toNat).kernelPointer := by
  have hb := h.bounds
  obtain ⟨-, -, -, -, -, -, -, hkernel⟩ :=
    bootPlan_rising memUpper.toNat kernelPointer.toNat
  exact toNat_ofNat_of_lt (by omega)

end

/-! ### The structures -/

/-- What the first part of `paging_initialize` leaves: the pointers, the words of the first `count`
frames, of which none from `n` on is marked, and the heap, if its `heap_t` is not overwritten at once. -/
structure Created (memUpper kernelPointer : UInt32) (p q : BitmapPlace) (n : ℕ) (c : Computer) : Prop where
  kernelPointer_eq : c.kernelPointer = bootPointer memUpper kernelPointer
  paging_off : c.pagingState = 0
  frameBitmap_eq : c.frameBitmap = p.addr
  kernelHeap_eq : c.kernelHeap = heapAddr memUpper kernelPointer
  frames : ∃ b, BitmapAt p c.mem b ∧ ∀ i : UInt32, n ≤ i.toNat → i.toNat < p.count → b.words i = 0
  heap : (heapAddr memUpper kernelPointer).toNat + sizeofHeap ≤ q.addr.toNat →
    ∃ h, HeapAt c.kernelHeap q c.mem h ∧ h.start = memUpper &&& 0xFFFFF000 ∧ h.stop = 0 ∧
      ∀ i : UInt32, i.toNat < q.count → h.bitmap.words i = 0

/-- A bitmap of which only the first words are looked at. -/
theorem BitmapAt.shorten {p p' : BitmapPlace} {mem : Mem} {b : Bitmap} (h : BitmapAt p mem b)
    (haddr : p'.addr = p.addr) (hentries : p'.entries = p.entries) (hle : p'.count ≤ p.count) :
    BitmapAt p' mem { b with size := UInt32.ofNat p'.count } := by
  have hw := p'.words
  have hn : (UInt32.ofNat p'.count).toNat = p'.count := toNat_ofNat_of_lt (by omega)
  have hsize := UInt32.le_iff_toNat_le.1 h.size_le
  have hcount := h.count_eq
  refine ⟨?_, ?_, hn, fun i hi => ?_⟩
  · rw [haddr, hentries, h.entries_eq]
  · rw [haddr, UInt32.le_iff_toNat_le, hn]
    omega
  · rw [hentries]
    exact h.words_eq i (by omega)

section

variable {c : Computer} {memUpper : UInt32}

/-- The two creators, one after the other: the frame bitmap is made in `mem₁`, and what the heap adds to
it may lie over its words. -/
theorem Computer.bootCreate_run (hoff : c.pagingState = 0) (hroom : BootRoom memUpper c.kernelPointer)
    {p₀ q₀ : BitmapPlace} (hp₀ : framePlace hroom _ (le_refl (memUpper.toNat / 4)) = p₀)
    (hq₀ : heapPlace hroom _ (le_refl (memUpper.toNat / 4)) = q₀) :
    ∃ mem₁ mem₂ b h, c.bootCreate memUpper = some { c with
        kernelPointer := bootPointer memUpper c.kernelPointer
        frameBitmap := p₀.addr
        kernelHeap := heapAddr memUpper c.kernelPointer
        mem := mem₂ } ∧
      BitmapAt p₀ mem₁ b ∧ (∀ i : UInt32, i.toNat < p₀.count → b.words i = 0) ∧
      read32 mem₁ (p₀.addr + 4) = memUpper / 4 ∧
      h.start = memUpper &&& 0xFFFFF000 ∧ h.stop = 0 ∧
      (∀ i : UInt32, i.toNat < q₀.count → h.bitmap.words i = 0) ∧
      ((heapAddr memUpper c.kernelPointer).toNat + sizeofHeap ≤ q₀.addr.toNat →
        HeapAt (heapAddr memUpper c.kernelPointer) q₀ mem₂ h) ∧
      (∀ i : UInt32, i.toNat < q₀.count → read32 mem₂ (q₀.entries + 4 * i) = 0) ∧
      ∀ a, q₀.Outside a 1 → sizeofHeap ≤ (a - heapAddr memUpper c.kernelPointer).toNat →
        mem₂ a = mem₁ a := by
  obtain ⟨hentries, hheapEntries⟩ := hroom.bounds
  obtain ⟨hk, hb0, hbe, hheap, hheapBitmap, hhb0, hhe, hkp⟩ :=
    bootPlan_rising memUpper.toNat c.kernelPointer.toNat
  have hloaded := hroom.loaded
  have hsmall := hroom.small
  obtain ⟨hpa, hpe, -⟩ := framePlace_toNat hroom _ (le_refl (memUpper.toNat / 4))
  obtain ⟨hqa, hqe, -⟩ := heapPlace_toNat hroom _ (le_refl (memUpper.toNat / 4))
  have hquarter : (memUpper / 4).toNat = memUpper.toNat / 4 := UInt32.toNat_div _ _
  have hpq : pointerQuarter memUpper 0 = memUpper / 4 := by
    apply eq_of_toNat
    rw [toNat_pointerQuarter, if_pos hsmall, hquarter]
  have hpart : (memUpper / 4 / 0x20).toNat = memUpper.toNat / 128 := by
    rw [UInt32.toNat_div, hquarter, show (0x20 : UInt32).toNat = 32 from rfl, Nat.div_div_eq_div_mul]
  -- the frame bitmap
  have hp₀a : p₀.addr = UInt32.ofNat (nextPage c.kernelPointer.toNat) := by rw [← hp₀]; rfl
  have hp₀e : p₀.entries =
      UInt32.ofNat (nextPage ((bootPlan memUpper.toNat c.kernelPointer.toNat).bitmap + 8)) := by
    rw [← hp₀]
    rfl
  have hp₀n : p₀.count = memUpper.toNat / 4 := by rw [← hp₀]; rfl
  rw [hp₀] at hpa hpe
  have hheader : (p₀.addr + sizeofBitmap).toNat =
      (bootPlan memUpper.toNat c.kernelPointer.toNat).bitmap + 8 := by
    rw [← hpa]
    exact toNat_add_of_lt (by rw [hpa, sizeofBitmap]; simp only [UInt32.reduceToNat]; omega)
  obtain ⟨mem₁, b₁, hcreate₁, hat₁, -, hzero₁, -, hsize₁⟩ := Computer.bitmapCreate_spec hoff p₀
    (by rw [hp₀a]; exact ponterMoveInt_page _ hloaded (by rw [← bootPlan_bitmap memUpper.toNat]; omega))
    (by
      rw [hp₀e, ← hheader]
      refine ponterMoveInt_page _ (by omega) ?_
      rw [hheader]
      show (bootPlan memUpper.toNat c.kernelPointer.toNat).entries < _
      omega)
    (hquarter.trans hp₀n.symm)
  have hheapAddr : p₀.entries + memUpper / 4 / 0x20 = heapAddr memUpper c.kernelPointer := by
    apply eq_of_toNat
    rw [heapAddr_toNat hroom, toNat_add_of_lt (by rw [hpart, hpe]; omega), hpart, hpe, hheap]
  rw [hheapAddr] at hcreate₁
  have hheapNat := heapAddr_toNat hroom
  -- the heap
  have hq₀a : q₀.addr =
      UInt32.ofNat (nextPage ((bootPlan memUpper.toNat c.kernelPointer.toNat).heap + 4)) := by
    rw [← hq₀]
    rfl
  have hq₀e : q₀.entries =
      UInt32.ofNat (nextPage ((bootPlan memUpper.toNat c.kernelPointer.toNat).heapBitmap + 8)) := by
    rw [← hq₀]
    rfl
  have hq₀n : q₀.count = memUpper.toNat / 4 := by rw [← hq₀]; rfl
  rw [hq₀] at hqa hqe
  have hbehind : (heapAddr memUpper c.kernelPointer + sizeofHeapPointer).toNat =
      (bootPlan memUpper.toNat c.kernelPointer.toNat).heap + 4 := by
    rw [← hheapNat]
    exact toNat_add_of_lt (by rw [hheapNat, sizeofHeapPointer]; simp only [UInt32.reduceToNat]; omega)
  have hheader' : (q₀.addr + sizeofBitmap).toNat =
      (bootPlan memUpper.toNat c.kernelPointer.toNat).heapBitmap + 8 := by
    rw [← hqa]
    exact toNat_add_of_lt (by rw [hqa, sizeofBitmap]; simp only [UInt32.reduceToNat]; omega)
  obtain ⟨c₁, hc₁⟩ : ∃ c₁ : Computer, c₁ = { c with
    kernelPointer := heapAddr memUpper c.kernelPointer, mem := mem₁, frameBitmap := p₀.addr } := ⟨_, rfl⟩
  have hkp₁ : c₁.kernelPointer = heapAddr memUpper c.kernelPointer := by rw [hc₁]
  have hmem₁ : c₁.mem = mem₁ := by rw [hc₁]
  obtain ⟨mem₂, h₂, hcreate₂, hstart, hstop, -, hzero₂, hheapAt, hwords₂, hout₂⟩ :=
    Computer.heapCreate_spec (c := c₁) (by rw [hc₁]; exact hoff) memUpper 0 true false q₀
    (by
      rw [hq₀a, hkp₁, ← hbehind]
      refine ponterMoveInt_page _ (by omega) ?_
      rw [hbehind]
      show (bootPlan memUpper.toNat c.kernelPointer.toNat).heapBitmap < _
      omega)
    (by
      rw [hq₀e, ← hheader']
      refine ponterMoveInt_page _ (by omega) ?_
      rw [hheader']
      show (bootPlan memUpper.toNat c.kernelPointer.toNat).heapEntries < _
      omega)
    (by rw [hpq, hquarter, hq₀n])
    (by rw [hkp₁, hheapNat, hqe, show sizeofHeap = 13 from rfl]; omega)
  have hkp₂ : q₀.entries + pointerQuarter memUpper 0 / 0x20 = bootPointer memUpper c.kernelPointer := by
    apply eq_of_toNat
    rw [hpq, bootPointer_toNat hroom, toNat_add_of_lt (by rw [hpart, hqe]; omega), hpart, hqe, hkp]
  rw [hkp₂, hkp₁] at hcreate₂
  rw [hkp₁] at hheapAt hout₂
  rw [hmem₁] at hout₂
  refine ⟨mem₁, mem₂, b₁, h₂, ?_, hat₁, hzero₁, hsize₁, hstart, hstop, hzero₂, hheapAt, hwords₂, hout₂⟩
  rw [Computer.bootCreate, hcreate₁, Option.bind_some]
  simp only
  rw [← hc₁, hcreate₂, Option.map_some, hc₁]

/-- **The structures are made.** -/
theorem Computer.bootCreate_spec (hoff : c.pagingState = 0) (hroom : BootRoom memUpper c.kernelPointer)
    {count : ℕ} (hcount : count ≤ memUpper.toNat / 4)
    (hclear : BootClear memUpper c.kernelPointer count) :
    ∃ c', c.bootCreate memUpper = some c' ∧ Created memUpper c.kernelPointer
      (framePlace hroom count hcount) (heapPlace hroom count hcount)
      (bootPageCount memUpper c.kernelPointer) c' := by
  obtain ⟨hentries, hheapEntries⟩ := hroom.bounds
  obtain ⟨hk, hb0, hbe, hheap, hheapBitmap, hhb0, hhe, hkp⟩ :=
    bootPlan_rising memUpper.toNat c.kernelPointer.toNat
  obtain ⟨hpa, hpe, hpn⟩ := framePlace_toNat hroom _ (le_refl (memUpper.toNat / 4))
  obtain ⟨hqa, hqe, hqn⟩ := heapPlace_toNat hroom _ (le_refl (memUpper.toNat / 4))
  obtain ⟨p₀, hp₀⟩ : ∃ p₀, framePlace hroom _ (le_refl (memUpper.toNat / 4)) = p₀ := ⟨_, rfl⟩
  obtain ⟨q₀, hq₀⟩ : ∃ q₀, heapPlace hroom _ (le_refl (memUpper.toNat / 4)) = q₀ := ⟨_, rfl⟩
  obtain ⟨p, hp⟩ : ∃ p, framePlace hroom count hcount = p := ⟨_, rfl⟩
  obtain ⟨q, hq⟩ : ∃ q, heapPlace hroom count hcount = q := ⟨_, rfl⟩
  have hpp : p.addr = p₀.addr ∧ p.entries = p₀.entries ∧ p.count = count := by
    rw [← hp, ← hp₀]
    exact ⟨rfl, rfl, rfl⟩
  have hqq : q.addr = q₀.addr ∧ q.entries = q₀.entries ∧ q.count = count := by
    rw [← hq, ← hq₀]
    exact ⟨rfl, rfl, rfl⟩
  have hheapNat := heapAddr_toNat hroom
  obtain ⟨mem₁, mem₂, b₁, h₂, hrun, hat₁, hzero₁, hsize₁, hstart, hstop, hzero₂, hheapAt, hwords₂, hout₂⟩ :=
    Computer.bootCreate_run hoff hroom hp₀ hq₀
  rw [hp₀] at hpa hpe hpn
  rw [hq₀] at hqa hqe hqn
  have h13 : sizeofHeap = 13 := rfl
  have hstop₀ := q₀.stop_eq
  -- what lies before the `heap_t`, or between it and the heap's bitmap, is as it was
  have hsame : ∀ a : UInt32, (a.toNat + 4 ≤ (heapAddr memUpper c.kernelPointer).toNat ∨
      (heapAddr memUpper c.kernelPointer).toNat + 13 ≤ a.toNat) →
      (a.toNat + 4 ≤ q₀.addr.toNat ∨ q₀.addr.toNat + 8 ≤ a.toNat ∧ a.toNat + 4 ≤ q₀.entries.toNat) →
      read32 mem₂ a = read32 mem₁ a := by
    intro a hfar hout
    refine read32_congr fun i hi => hout₂ _ ?_ ?_
    · have hai : (a + i).toNat = a.toNat + i.toNat := toNat_add_of_lt (by omega)
      unfold BitmapPlace.Outside
      omega
    · have hai : (a + i).toNat = a.toNat + i.toNat := toNat_add_of_lt (by omega)
      have hx := (a + i).toNat_lt
      have hy := (heapAddr memUpper c.kernelPointer).toNat_lt
      rw [UInt32.toNat_sub, h13]
      omega
  have hwords : ∀ i : UInt32, bootPageCount memUpper c.kernelPointer ≤ i.toNat → i.toNat < count →
      read32 mem₂ (p.entries + 4 * i) = 0 := by
    intro i hn hi
    have hi₀ : i.toNat < p₀.count := by omega
    have hentry := p₀.entry_toNat hi₀
    rw [hpp.2.1]
    by_cases hin : q₀.entries.toNat ≤ (p₀.entries + 4 * i).toNat
    · obtain ⟨j, hj⟩ : ∃ j : ℕ, (p₀.entries + 4 * i).toNat = q₀.entries.toNat + 4 * j :=
        ⟨((p₀.entries + 4 * i).toNat - q₀.entries.toNat) / 4, by omega⟩
      have hjn : (UInt32.ofNat j).toNat = j := toNat_ofNat_of_lt (by omega)
      have hjq : (UInt32.ofNat j).toNat < q₀.count := by omega
      rw [show p₀.entries + 4 * i = q₀.entries + 4 * UInt32.ofNat j from
        eq_of_toNat (by rw [hj, q₀.entry_toNat hjq, hjn])]
      exact hwords₂ _ hjq
    · have hclearHeap := hclear.heap
      have hclearBitmap := hclear.bitmap
      rw [hsame _ (by omega) (by omega), hat₁.words_eq i hi₀, hzero₁ i hi₀]
  refine ⟨_, hrun, rfl, hoff, ?_, rfl, ?_, fun hbefore => ?_⟩
  · rw [hp]
    exact hpp.1.symm
  · rw [hp]
    have hcountNat : (UInt32.ofNat count).toNat = count := toNat_ofNat_of_lt (by omega)
    refine ⟨⟨p.addr, p.entries, UInt32.ofNat count, fun i => read32 mem₂ (p.entries + 4 * i)⟩,
      ⟨?_, ?_, by rw [hcountNat, hpp.2.2], fun i _ => rfl⟩,
      fun i hn hi => hwords i hn (by rw [hpp.2.2] at hi; exact hi)⟩
    · rw [hpp.1, hpp.2.1, hsame _ (by omega) (by omega), hat₁.entries_eq]
    · have hs := p₀.size_toNat
      rw [hpp.1, hsame _ (by omega) (by omega), hsize₁, UInt32.le_iff_toNat_le, hcountNat, UInt32.toNat_div]
      exact hcount
  · rw [hq] at hbefore ⊢
    obtain ⟨h1, h2, h3, h4⟩ := hheapAt (by rw [← hqq.1]; exact hbefore)
    refine ⟨{ h₂ with bitmap := { h₂.bitmap with size := UInt32.ofNat q.count } },
      ⟨h1, h2, h3.trans hqq.1.symm, h4.shorten hqq.1 hqq.2.1 (by omega)⟩, hstart, hstop,
      fun i hi => hzero₂ i (by omega)⟩

end

/-! ### The loop over the frames -/

/-- The machine that the computer follows, with another frame bitmap. -/
def Machine.withFrames (m : Machine) (b : Bitmap) : Machine := { m with frameBitmap := b }

section

variable {p : BitmapPlace} {c : Computer} {m : Machine} {n : ℕ}

/-- **`frame_set` of every page below `kernel_pointer`.** -/
theorem FrameSim.bootFrames (h : FrameSim p c m) (hoff : c.pagingState = 0)
    (hn : (c.kernelPointer.toNat + 0xFFF) / 0x1000 = n) (hn20 : n < 2 ^ 20) (hnp : n ≤ p.count)
    (hfree : ∀ i : UInt32, n ≤ i.toNat → i.toNat < p.count → m.frameBitmap.words i = 0) :
    ∃ c' b, c.bootFrames = some c' ∧ p.Changes c c' ∧ FrameSim p c' (m.withFrames b) ∧
      ∀ i : UInt32, i.toNat < p.count → (b.words i = 0 ↔ n ≤ i.toNat) := by
  have hlt : ∀ k < 2 ^ 20, (pageAddr k < c.kernelPointer ↔ k < n) := by
    intro k hk
    rw [UInt32.lt_iff_toNat_lt, pageAddr_toNat hk]
    omega
  obtain ⟨⟨a, c'⟩, hrun, ⟨k, hk, rfl, hchange, b, hsim, hwords⟩, hend⟩ := whileLoop_spec
    (fun x : UInt32 × Computer => ∃ k ≤ n, x.1 = pageAddr k ∧ p.Changes c x.2 ∧
      ∃ b, FrameSim p x.2 (m.withFrames b) ∧ ∀ i : UInt32, i.toNat < p.count →
        b.words i = if i.toNat < k then 1 else m.frameBitmap.words i)
    (fun x => n - x.1.toNat / 0x1000)
    (c := fun x => decide (x.1 < x.2.kernelPointer))
    (f := fun x => (x.2.frameSet x.1).map fun c => (x.1 + 0x1000, c))
    (by
      rintro ⟨a, c'⟩ ⟨k, hk, rfl, hchange, b, hsim, hwords⟩ hc
      have hkp : c'.kernelPointer = c.kernelPointer := by
        obtain ⟨mem, rfl, -⟩ := hchange
        rfl
      rw [decide_eq_true_iff, hkp, hlt k (by omega)] at hc
      have hdiv := pageAddr_div (i := k) (by omega)
      have hto := pageAddr_toNat (i := k) (by omega)
      have hto' := pageAddr_toNat (i := k + 1) (by omega)
      obtain ⟨c'', hset, hchange', hsim'⟩ := hsim.setFrame (hchange.seen (p.seen_off hoff))
        (pageAddr k) (by omega)
      refine ⟨(pageAddr k + 0x1000, c''), by rw [hset, Option.map_some], ⟨k + 1, hc,
        pageAddr_succ (by omega), hchange.trans hchange', _, hsim', fun i hi => ?_⟩, ?_⟩
      · rw [bitmapEntrieSet_words]
        by_cases hik : i = pageAddr k / 0x1000
        · rw [if_pos hik, if_pos (by rw [hik, hdiv]; omega)]
        · have hne := toNat_ne hik
          rw [if_neg hik]
          show b.words i = _
          rw [hwords i hi]
          have hiff : i.toNat < k + 1 ↔ i.toNat < k := by omega
          simp only [hiff]
      · show n - (pageAddr k + 0x1000).toNat / 0x1000 < n - (pageAddr k).toNat / 0x1000
        rw [pageAddr_succ (by omega), hto, hto']
        omega)
    (2 ^ 32) (0, c)
    ⟨0, Nat.zero_le n, rfl, BitmapPlace.Changes.refl p c, m.frameBitmap, h, fun i _ => by
      rw [if_neg (Nat.not_lt_zero _)]⟩
    (by
      show n - _ < _
      omega)
  refine ⟨c', b, by rw [Computer.bootFrames, hrun, Option.map_some], hchange, hsim, fun i hi => ?_⟩
  have hkp : c'.kernelPointer = c.kernelPointer := by
    obtain ⟨mem, rfl, -⟩ := hchange
    rfl
  have hkn := of_decide_eq_false hend
  rw [hkp, hlt k (by omega)] at hkn
  obtain rfl : k = n := by omega
  rw [hwords i hi]
  split
  · rename_i hik
    exact iff_of_false (by decide) (by omega)
  · rename_i hik
    exact iff_of_true (hfree i (by omega) hi) (by omega)

/-! ### The loop over the pages -/

/-- **`page_map` of every page below `kernel_pointer`**, with the directory behind them. -/
theorem FrameSim.bootPages (h : FrameSim p c m) (hoff : c.pagingState = 0) (htab : TablesAt n p.count 0 m)
    (hn : (c.kernelPointer.toNat + 0xFFF) / 0x1000 = n) (hroom : n + 1 + regions n ≤ 2 ^ 20)
    (hsize : n + 1 + regions n ≤ p.count) (hstop : p.stop ≤ n * 0x1000) :
    ∃ c' m', c.bootPages = some c' ∧ c.MemOnly c' ∧ FrameSim p c' m' ∧ TablesAt n p.count n m' ∧
      ∀ a : UInt32, a.toNat < n * 0x1000 → m'.mem a = m.mem a := by
  have hlt : ∀ k < 2 ^ 20, (pageAddr k < c.kernelPointer ↔ k < n) := by
    intro k hk
    rw [UInt32.lt_iff_toNat_lt, pageAddr_toNat hk]
    omega
  have hkp : ∀ {c'}, c.MemOnly c' → c'.kernelPointer = c.kernelPointer := by
    rintro c' ⟨mem, rfl⟩
    rfl
  obtain ⟨⟨a, c'⟩, hrun, ⟨k, m', hk, rfl, hmem, hsim, htab', hbelow⟩, hend⟩ := whileLoop_spec
    (fun x : UInt32 × Computer => ∃ k m', k ≤ n ∧ x.1 = pageAddr k ∧ c.MemOnly x.2 ∧
      FrameSim p x.2 m' ∧ TablesAt n p.count k m' ∧
      ∀ a : UInt32, a.toNat < n * 0x1000 → m'.mem a = m.mem a)
    (fun x => n - x.1.toNat / 0x1000)
    (c := fun x => decide (x.1 < x.2.kernelPointer))
    (f := fun x => (x.2.pageMap x.1 x.1 3 0).map fun y => (x.1 + 0x1000, y.2))
    (by
      rintro ⟨a, c'⟩ ⟨k, m', hk, rfl, hmem, hsim, htab', hbelow⟩ hc
      rw [decide_eq_true_iff, hkp hmem, hlt k (by omega)] at hc
      have hto := pageAddr_toNat (i := k) (by omega)
      have hto' := pageAddr_toNat (i := k + 1) (by omega)
      obtain ⟨c'', m'', hmap, hmem', hsim', htab'', hbelow'⟩ :=
        hsim.mapTurn (hmem.paging_off hoff) htab' hc hroom hsize hstop
      refine ⟨(pageAddr k + 0x1000, c''), by rw [hmap, Option.map_some], ⟨k + 1, m'', hc,
        pageAddr_succ (by omega), hmem.trans hmem', hsim', htab'', fun a ha => ?_⟩, ?_⟩
      · rw [hbelow' a ha, hbelow a ha]
      · show n - (pageAddr k + 0x1000).toNat / 0x1000 < n - (pageAddr k).toNat / 0x1000
        rw [pageAddr_succ (by omega), hto, hto']
        omega)
    (2 ^ 32) (0, c)
    ⟨0, m, Nat.zero_le n, rfl, ⟨c.mem, rfl⟩, h, htab, fun _ _ => rfl⟩
    (by
      show n - _ < _
      omega)
  have hkn := of_decide_eq_false hend
  rw [hkp hmem, hlt k (by omega)] at hkn
  obtain rfl : k = n := by omega
  exact ⟨c', m', by rw [Computer.bootPages, hrun, Option.map_some], hmem, hsim, htab', hbelow⟩

end

/-! ### All of it -/

/-- What `paging_initialize` leaves, before it turns paging on, of what it made: the tables, and below
the directory all that is not the frame bitmap's as it was made. -/
structure Started (p : BitmapPlace) (n : ℕ) (c₁ c₂ : Computer) (m : Machine) : Prop where
  globals : ∃ mem, c₂ = { c₁ with cr3 := pageAddr n, mem }
  sim : FrameSim p c₂ m
  tables : TablesAt n p.count n m
  below : ∀ a : UInt32, a.toNat < n * 0x1000 → p.Outside a 1 → c₂.mem a = c₁.mem a

section

variable {p : BitmapPlace} {c₁ : Computer} {n : ℕ}

/-- The loops and the directory. -/
theorem bootMap_spec (hoff : c₁.pagingState = 0) (hframe : c₁.frameBitmap = p.addr)
    (hbits : ∃ b, BitmapAt p c₁.mem b ∧ ∀ i : UInt32, n ≤ i.toNat → i.toNat < p.count → b.words i = 0)
    (hn : (c₁.kernelPointer.toNat + 0xFFF) / 0x1000 = n) (hn0 : 0 < n)
    (hroom : n + 1 + regions n ≤ 2 ^ 20) (hsize : n + 1 + regions n ≤ p.count)
    (hstop : p.stop ≤ n * 0x1000) :
    ∃ c₂ m, (c₁.bootFrames.bind fun c => (c.directoryCreate 2).bind fun directory =>
        (directory.2.directoryLoad directory.1).bootPages.map fun c => { c with pagingState := 1 }) =
          some { c₂ with pagingState := 1 } ∧ Started p n c₁ c₂ m := by
  obtain ⟨b, hat, hfree⟩ := hbits
  have hsim : FrameSim p c₁ ⟨c₁.kernelPointer, b, none, c₁.pagingState, c₁.cr3, c₁.mem⟩ :=
    ⟨rfl, rfl, rfl, hframe, hat, fun _ _ => rfl⟩
  obtain ⟨c, b', hframes, hchange, hsim₁, hwords⟩ := hsim.bootFrames hoff hn (by omega) (by omega) hfree
  have hcmem := hchange.memOnly
  have hcoff := hcmem.paging_off hoff
  obtain ⟨m₁, hm₁⟩ : ∃ m₁, Machine.withFrames ⟨c₁.kernelPointer, b, none, c₁.pagingState, c₁.cr3, c₁.mem⟩
    b' = m₁ := ⟨_, rfl⟩
  have hb' : m₁.frameBitmap = b' := by rw [← hm₁]; rfl
  have hmem₁ : m₁.mem = c₁.mem := by rw [← hm₁]; rfl
  rw [hm₁] at hsim₁
  rw [← hb'] at hwords
  have hcount := hsim₁.bitmap.count_eq
  have hnn : (UInt32.ofNat n).toNat = n := toNat_ofNat_of_lt (by omega)
  obtain ⟨c', hdir, hdmem, hsim₂⟩ := hsim₁.newDirectory hcoff hn0 (by omega) (by omega)
    (fun i hi h0 => by have := (hwords i (by omega)).1 h0; omega)
    ((hwords _ (by omega)).2 (by omega)) (p.outside_page (by omega) hstop) 2
  have htab := directory_tablesAt (m := m₁) (n := n) (by omega) (hsim₁.pagingState_eq.trans hcoff)
    (fun i hi => hwords i (by omega))
  rw [hcount] at htab
  obtain ⟨mem₂, hmem₂⟩ : ∃ mem₂, fillTable (pageAddr n) (fun _ _ => 2) m₁.mem = mem₂ := ⟨_, rfl⟩
  have hfill : ∀ a : UInt32, a.toNat < n * 0x1000 → mem₂ a = c₁.mem a := by
    intro a ha
    have hnto := pageAddr_toNat (i := n) (by omega)
    rw [← hmem₂, fillTable_outside _ _ (far_of_outside (by omega) (by omega)), hmem₁]
  rw [hmem₂] at hsim₂ htab
  obtain ⟨m₂, hm₂⟩ : ∃ m₂ : Machine, directoryLoad (pageAddr n)
    { frameSet (pageAddr n) m₁ with mem := mem₂ } = m₂ := ⟨_, rfl⟩
  have hm₂mem : m₂.mem = mem₂ := by rw [← hm₂]; rfl
  have hsim₃ : FrameSim p (c'.directoryLoad (pageAddr n)) m₂ := by
    rw [← hm₂]
    exact ⟨hsim₂.kernelPointer_eq, hsim₂.pagingState_eq, rfl, hsim₂.frameBitmap_eq, hsim₂.bitmap,
      hsim₂.mem_eq⟩
  rw [hm₂] at htab
  obtain ⟨mem', hc'⟩ := hcmem.trans hdmem
  obtain ⟨c₂, m, hpages, ⟨mem'', hc₂⟩, hsim₄, htab', hbelow⟩ := hsim₃.bootPages
    (show (c'.directoryLoad (pageAddr n)).pagingState = 0 by rw [hc']; exact hoff) htab
    (show ((c'.directoryLoad (pageAddr n)).kernelPointer.toNat + 0xFFF) / 0x1000 = n by rw [hc']; exact hn)
    hroom hsize hstop
  refine ⟨c₂, m, ?_, ⟨mem'', ?_⟩, hsim₄, htab', fun a ha hout => ?_⟩
  · rw [hframes, Option.bind_some, hdir, Option.bind_some]
    simp only
    rw [hpages, Option.map_some]
  · rw [hc₂, hc']
    rfl
  · rw [← hsim₄.mem_eq a hout, hbelow a ha, hm₂mem, hfill a ha]

/-- **`paging_initialize`**, where memory has room and the words of the frames it uses are its own. -/
theorem pagingInitialize_spec {c : Computer} (memLower : UInt32) {memUpper : UInt32}
    (hoff : c.pagingState = 0) (hroom : BootRoom memUpper c.kernelPointer) (count : ℕ)
    (hused : bootFrameCount memUpper c.kernelPointer ≤ count) (hcount : count ≤ memUpper.toNat / 4)
    (hclear : BootClear memUpper c.kernelPointer count) :
    ∃ c₁ c₂ m, c.pagingInitialize memLower memUpper = some { c₂ with pagingState := 1 } ∧
      Created memUpper c.kernelPointer (framePlace hroom count hcount) (heapPlace hroom count hcount)
        (bootPageCount memUpper c.kernelPointer) c₁ ∧
      Started (framePlace hroom count hcount) (bootPageCount memUpper c.kernelPointer) c₁ c₂ m := by
  obtain ⟨c₁, hcreate, hmade⟩ := Computer.bootCreate_spec hoff hroom hcount hclear
  obtain ⟨hpa, hpe, hpn⟩ := framePlace_toNat hroom count hcount
  have hstop := (framePlace hroom count hcount).stop_eq
  have hkp := bootPointer_toNat hroom
  have hloaded := hroom.loaded
  have had := hroom.addresses
  have hdirectory := hclear.directory
  obtain ⟨hk, -, -, hheap, hheapBitmap, -, hhe, hkpe⟩ :=
    bootPlan_rising memUpper.toNat c.kernelPointer.toNat
  have hpages : bootPageCount memUpper c.kernelPointer =
      ((bootPlan memUpper.toNat c.kernelPointer.toNat).kernelPointer + 0xFFF) / 0x1000 := rfl
  have hframes : bootFrameCount memUpper c.kernelPointer = bootPageCount memUpper c.kernelPointer + 1 +
      regions (bootPageCount memUpper c.kernelPointer) := rfl
  obtain ⟨c₂, m, hrun, hstarted⟩ := bootMap_spec (n := bootPageCount memUpper c.kernelPointer)
    hmade.paging_off hmade.frameBitmap_eq hmade.frames
    (by rw [hmade.kernelPointer_eq, hkp]; rfl) (by omega) (by omega) (by omega) (by omega)
  refine ⟨c₁, c₂, m, ?_, hmade, hstarted⟩
  rw [Computer.pagingInitialize, hcreate, Option.bind_some]
  exact hrun

end

end CometOS
