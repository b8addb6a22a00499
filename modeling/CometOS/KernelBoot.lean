import CometOS.KernelMemory

/-!
# The kernel's memory after booting

With the structures apart (`BootApart`), `paging_initialize` leaves the memory of `KernelLayout`: an empty
heap, the frames behind the table free, and the first 4 MiB mapped to themselves.
-/

namespace CometOS

open ByteMemory Loop Paged Word32

/-- The words of the frames below the directory and the table are inside the region that the frame bitmap
has, and the `heap_t` ends before the heap's bitmap, so that nothing is written over them; and one table is
enough.  The kernel is loaded at 1 MiB. -/
structure BootApart (memUpper kernelPointer : UInt32) : Prop where
  loaded : 0x100000 ≤ kernelPointer.toNat
  heap : (bootPlan memUpper.toNat kernelPointer.toNat).heap + sizeofHeap ≤
    (bootPlan memUpper.toNat kernelPointer.toNat).heapBitmap
  one_table : bootPageCount memUpper kernelPointer + 2 ≤ 1024
  frames : bootPageCount memUpper kernelPointer + 2 ≤ memUpper.toNat / 512

instance (memUpper kernelPointer : UInt32) : Decidable (BootApart memUpper kernelPointer) :=
  decidable_of_iff (_ ∧ _ ∧ _ ∧ _) ⟨fun h => ⟨h.1, h.2.1, h.2.2.1, h.2.2.2⟩, fun h => ⟨h.1, h.2, h.3, h.4⟩⟩

section

variable {memUpper kernelPointer : UInt32} (h : BootApart memUpper kernelPointer)

include h

/-- The structures in numbers. -/
theorem BootApart.plan : (bootPlan memUpper.toNat kernelPointer.toNat).heapEntries + memUpper.toNat / 128 ≤
      bootPageCount memUpper kernelPointer * 0x1000 ∧ regions (bootPageCount memUpper kernelPointer) = 1 := by
  have hloaded := h.loaded
  have htable := h.one_table
  obtain ⟨hk, -, -, hheap, hheapBitmap, -, hheapEntries, hkernel⟩ :=
    bootPlan_rising memUpper.toNat kernelPointer.toNat
  have hpages : bootPageCount memUpper kernelPointer =
      ((bootPlan memUpper.toNat kernelPointer.toNat).kernelPointer + 0xFFF) / 0x1000 := rfl
  refine ⟨by omega, ?_⟩
  unfold regions
  omega

theorem BootApart.frameCount : bootFrameCount memUpper kernelPointer =
    bootPageCount memUpper kernelPointer + 2 := by
  rw [bootFrameCount, h.plan.2]

theorem BootApart.room : BootRoom memUpper kernelPointer := by
  have hloaded := h.loaded
  have htable := h.one_table
  have hframes := h.frames
  have hplan := h.plan.1
  have hcount := h.frameCount
  exact ⟨by omega, by omega, by omega, by omega, by omega⟩

/-- `kernel_pointer` after the boot structures are made. -/
theorem BootApart.pointer : 0x100000 ≤ (bootPointer memUpper kernelPointer).toNat ∧
    (bootPointer memUpper kernelPointer).toNat ≤ bootPageCount memUpper kernelPointer * 0x1000 := by
  have hloaded := h.loaded
  obtain ⟨hk, -, hentries, hheap, hheapBitmap, -, hheapEntries, hkernel⟩ :=
    bootPlan_rising memUpper.toNat kernelPointer.toNat
  have hplan := h.plan.1
  rw [bootPointer_toNat h.room]
  omega

theorem BootApart.clear : BootClear memUpper kernelPointer (memUpper.toNat / 512) := by
  have hplan := h.plan.1
  obtain ⟨-, -, -, hheap, hheapBitmap, -, hheapEntries, -⟩ :=
    bootPlan_rising memUpper.toNat kernelPointer.toNat
  exact ⟨Or.inl (by omega), Or.inl (by omega), by omega⟩

end

/-- **The layout that booting makes.**  Each bitmap's words are as many as its region has room for, one for
128 that it is meant to have. -/
def bootLayout (memUpper kernelPointer : UInt32) (h : BootApart memUpper kernelPointer) : KernelLayout where
  frames := framePlace h.room (memUpper.toNat / 512) (by omega)
  heap := heapAddr memUpper kernelPointer
  entries := heapPlace h.room (memUpper.toNat / 512) (by omega)
  pages := bootPageCount memUpper kernelPointer
  loaded := by
    have hloaded := h.loaded
    obtain ⟨hk, -⟩ := bootPlan_rising memUpper.toNat kernelPointer.toNat
    rw [(framePlace_toNat h.room _ _).1]
    omega
  frames_heap := by
    obtain ⟨-, he, -⟩ := framePlace_toNat h.room (memUpper.toNat / 512) (by omega)
    obtain ⟨-, -, -, hheap, -⟩ := bootPlan_rising memUpper.toNat kernelPointer.toNat
    have hstop := (framePlace h.room (memUpper.toNat / 512) (by omega)).stop_eq
    have hcount : (framePlace h.room (memUpper.toNat / 512) (by omega)).count = memUpper.toNat / 512 := rfl
    rw [hstop, he, hcount, heapAddr_toNat h.room]
    omega
  heap_entries := by
    rw [heapAddr_toNat h.room, (heapPlace_toNat h.room _ _).1]
    exact h.heap
  entries_stop := by
    obtain ⟨-, he, -⟩ := heapPlace_toNat h.room (memUpper.toNat / 512) (by omega)
    have hplan := h.plan.1
    have hstop := (heapPlace h.room (memUpper.toNat / 512) (by omega)).stop_eq
    have hcount : (heapPlace h.room (memUpper.toNat / 512) (by omega)).count = memUpper.toNat / 512 := rfl
    rw [hstop, he, hcount]
    omega
  one_table := h.one_table
  enough := h.frames

theorem bootLayout_entries {memUpper kernelPointer : UInt32} (h : BootApart memUpper kernelPointer) :
    (bootLayout memUpper kernelPointer h).frames.entries.toNat =
        (bootPlan memUpper.toNat kernelPointer.toNat).entries ∧
      (bootLayout memUpper kernelPointer h).entries.entries.toNat =
        (bootPlan memUpper.toNat kernelPointer.toNat).heapEntries :=
  have hcount : memUpper.toNat / 512 ≤ memUpper.toNat / 4 := by omega
  ⟨(framePlace_toNat h.room _ hcount).2.1, (heapPlace_toNat h.room _ hcount).2.1⟩

/-- What booting leaves, on the machine's side: an empty heap from `mem_upper` down, the frames behind the
table free, and the first 4 MiB mapped to themselves. -/
structure Booted (L : KernelLayout) (memUpper : UInt32) (m : Machine) (heap : Heap) : Prop where
  start_eq : heap.start = memUpper &&& 0xFFFFF000
  stop_eq : heap.stop = 0
  entries : ∀ i : UInt32, i.toNat < L.entries.count → heap.bitmap.words i = 0
  frames : ∀ i : UInt32, i.toNat < L.frames.count → (m.frameBitmap.words i = 0 ↔ L.pages + 2 ≤ i.toNat)
  words : ∀ i < 1024, m.word L i = pageAddr i ||| 3

section

variable {c₁ c₂ : Computer} {m : Machine} {memUpper kernelPointer : UInt32}

/-- The one table of the machine that booting ends with. -/
theorem Started.oneTable {L : KernelLayout} (hs : Started L.frames L.pages c₁ c₂ m) (m' : Machine)
    (hreg : regions L.pages = 1) (hframes : m'.frameBitmap = m.frameBitmap) (hcr3 : m'.cr3 = m.cr3)
    (hmem : m'.mem = m.mem) : OneTable L m' ∧
      (∀ i < 1024, m'.word L i = pageAddr i ||| 3) ∧
      ∀ i : UInt32, i.toNat < L.frames.count → (m'.frameBitmap.words i = 0 ↔ L.pages + 2 ≤ i.toNat) := by
  have hL := L.order
  have hdir := hs.tables.dir
  have htable := hs.tables.table 0 (by omega)
  rw [hreg] at hdir
  have hword : ∀ i < 1024, m'.word L i = pageAddr i ||| 3 := by
    intro i hi
    have hi' : (UInt32.ofNat i).toNat = i := toNat_ofNat_of_lt (by omega)
    have h0 := htable (UInt32.ofNat i) (by omega)
    rw [hi', Nat.zero_mul, Nat.zero_add, ite_self] at h0
    rw [Machine.word, hmem]
    exact h0
  have hused : ∀ i : UInt32, i.toNat < L.frames.count →
      (m'.frameBitmap.words i = 0 ↔ L.pages + 2 ≤ i.toNat) := by
    intro i hi
    have h0 := hs.tables.frames i hi
    rwa [hreg, ← hframes] at h0
  refine ⟨⟨hcr3.trans hs.tables.cr3_eq, by rw [hframes]; exact hs.tables.size_eq, ?_, fun e he0 he => ?_,
    fun i hi => hword i (by have := hi.2; omega), fun i hi _ => ?_, fun i hi h0 => ?_⟩, hword, hused⟩
  · rw [hmem, KernelLayout.directory, hdir 0 (by decide), if_pos (by decide)]
    rfl
  · rw [hmem, KernelLayout.directory, hdir e he, if_neg (by omega)]
    decide
  · refine ⟨i, ?_, by omega, fun hlow => ⟨by omega, fun hown => by have := hown.1; omega⟩⟩
    rw [hword i hi, phyGet_three (pageAddr_aligned (by omega))]
  · have hlt := hi.2
    have hi' : (UInt32.ofNat i).toNat = i := toNat_ofNat_of_lt (by omega)
    have := (hused _ (by omega)).1 h0
    omega

/-- **`paging_initialize`**, with the structures apart. -/
theorem pagingInitialize_kernelAt {c : Computer} (memLower : UInt32) (hoff : c.pagingState = 0)
    (h : BootApart memUpper c.kernelPointer) :
    ∃ c' m heap, c.pagingInitialize memLower memUpper = some c' ∧
      KernelAt (bootLayout memUpper c.kernelPointer h) c' m heap ∧
      Booted (bootLayout memUpper c.kernelPointer h) memUpper m heap ∧
      c'.kernelPointer = bootPointer memUpper c.kernelPointer := by
  have hframes := h.frames
  obtain ⟨c₁, c₂, m, hrun, hmade, hs⟩ := pagingInitialize_spec memLower hoff h.room
    (memUpper.toNat / 512) (by rw [h.frameCount]; exact hframes) (by omega) h.clear
  have hL := (bootLayout memUpper c.kernelPointer h).order
  obtain ⟨L, hLeq⟩ : ∃ L, bootLayout memUpper c.kernelPointer h = L := ⟨_, rfl⟩
  have hp : framePlace h.room (memUpper.toNat / 512) (by omega) = L.frames := by rw [← hLeq]; rfl
  have hq : heapPlace h.room (memUpper.toNat / 512) (by omega) = L.entries := by rw [← hLeq]; rfl
  have hn : bootPageCount memUpper c.kernelPointer = L.pages := by rw [← hLeq]; rfl
  have hheap : heapAddr memUpper c.kernelPointer = L.heap := by rw [← hLeq]; rfl
  have hreg := h.plan.2
  rw [hp, hq, hn] at hmade
  rw [hp, hn] at hs
  rw [hn] at hreg
  rw [hLeq] at hL ⊢
  obtain ⟨heap, hat, hstart, hstop, hzero⟩ := hmade.heap (by
    rw [hheap]
    exact L.heap_entries)
  rw [hmade.kernelHeap_eq, hheap] at hat
  obtain ⟨mem, hc₂⟩ := hs.globals
  have hglobals : c₂.frameBitmap = c₁.frameBitmap ∧ c₂.kernelHeap = c₁.kernelHeap ∧
      c₂.kernelPointer = c₁.kernelPointer := by
    rw [hc₂]
    exact ⟨rfl, rfl, rfl⟩
  have htable := hs.oneTable (L := L) { m with kernelHeap := some heap, pagingState := 1 } hreg rfl
    rfl rfl
  refine ⟨{ c₂ with pagingState := 1 }, { m with kernelHeap := some heap, pagingState := 1 }, heap, hrun, ?_,
    ⟨hstart, hstop, hzero, htable.2.2, htable.2.1⟩, hglobals.2.2.trans hmade.kernelPointer_eq⟩
  refine ⟨hs.sim.bitmap, hs.sim.kernelPointer_eq, hglobals.1.trans hmade.frameBitmap_eq,
    show (1 : UInt32) ≠ 0 by decide, hs.cr3,
    fun base hb i hi => ?_, hglobals.2.1.trans (hmade.kernelHeap_eq.trans hheap), rfl,
    hat.congr fun a hlo hhi => hs.below a (by omega) ?_, ?_, htable.1⟩
  · exact (KernelLayout.frames_outside hb).pageWord_eq (fun a ha => (hs.sim.mem_eq a ha).symm)
      (KernelLayout.tables_aligned hb) hi
  · unfold BitmapPlace.Outside
    omega
  · rw [hstart, pageAligned_iff, toNat_and_page]
    omega

end

end CometOS
