import CometOS.KernelBoot
import CometOS.KernelHeap

/-!
# Runs of `heap_alloc` and `heap_free` in the kernel's memory

A run keeps the live allocations, each with the bitmap entry its search came out at.  `Clear` is what a
call needs so that none of the memory code's own structures gets in its way: the search comes out among the
heap bitmap's own words, the pages are of the one table and none of the memory code's, and there is a free
frame for each.  The calls of such a run return, and each does to the computer what it does to the machine.
-/

namespace CometOS

open ByteMemory Loop Paged Run Word32

/-- An entry of the frame bitmap. -/
def Computer.frameEntry (i : UInt32) (c : Computer) : Option UInt32 := c.bitmapEntrieCheck i c.frameBitmap

/-- An entry of the heap's bitmap. -/
def Computer.heapWord (i : UInt32) (c : Computer) : Option UInt32 :=
  (c.load32 (c.kernelHeap + 9)).bind fun bitmap => c.bitmapEntrieCheck i bitmap

/-- The computer and the live allocations. -/
structure KernelRun where
  computer : Computer
  live : List Block

/-- One call.  `heap_free` is given a live allocation. -/
def kernelStep (r : KernelRun) : HeapOp → Option KernelRun
  | .alloc size => (r.computer.heapAlloc size r.computer.kernelHeap).map fun x =>
    { computer := x.2
      live := if x.1 = (0 : UInt32) then r.live
        else ⟨x.1, size, (r.computer.heapEntry size).getD 0⟩ :: r.live }
  | .free block =>
    if block ∈ r.live then
      (r.computer.heapFree block.addr block.size r.computer.kernelHeap).map fun x =>
        { computer := x.2, live := r.live.erase block }
    else none

/-! ### What a call needs -/

/-- How many of the frames whose words are the frame bitmap's own are free. -/
def Computer.freeCount (L : KernelLayout) (c : Computer) : ℕ :=
  ((Finset.range L.frames.count).filter fun f => c.frameTest (pageAddr f) = some 0).card

/-- The block lies in the first 4 MiB, before the memory code's pages or behind them, and there are free
frames for it. -/
structure BlockClear (L : KernelLayout) (c : Computer) (addr size : UInt32) : Prop where
  one_table : addr.toNat + size.toNat ≤ 0x400000
  apart : addr.toNat + size.toNat ≤ 0x100000 ∨ (L.pages + 2) * 0x1000 ≤ addr.toNat ∨ size = 0
  frames : size.toNat / 0x1000 ≤ c.freeCount L

/-- The search comes out among the heap bitmap's own words, and if it comes out at a page, the block is
clear. -/
structure AllocClear (L : KernelLayout) (c : Computer) (size index start : UInt32) : Prop where
  found : c.heapEntry size = some index
  start_eq : c.load32 c.kernelHeap = some start
  inside : index.toNat + max (size.toNat / 0x1000) 1 ≤ L.entries.count
  block : start - index * 0x1000 ≠ 0 → start - index * 0x1000 ≤ start →
    BlockClear L c (start - index * 0x1000) size

/-- What a call needs, in the state before it.  A request that is not for whole pages is turned down, and
the loop of `heap_free`, which goes down, starts below the first MiB or is not entered. -/
def Clear (L : KernelLayout) (r : KernelRun) : HeapOp → Prop
  | .alloc size => PageAligned size → ∃ index start, AllocClear L r.computer size index start
  | .free block => block ∈ r.live → block.size = 0 ∨ block.addr.toNat < 0x100000

/-- A request comes out at no page of the heap, is for no page, or its block starts at `low` or above. -/
def StaysAbove (low : ℕ) (r : KernelRun) : HeapOp → Prop
  | .alloc size => PageAligned size → size ≠ 0 → ∀ index start, r.computer.heapEntry size = some index →
      r.computer.load32 r.computer.kernelHeap = some start → start - index * 0x1000 ≠ 0 →
        start - index * 0x1000 ≤ start → low ≤ (start - index * 0x1000).toNat
  | .free _ => True

/-! ### The invariant -/

/-- Where a live allocation comes from. -/
structure BlockPlaced (L : KernelLayout) (heap : Heap) (b : Block) : Prop where
  size_aligned : PageAligned b.size
  addr_eq : b.addr = entryAddr heap b.index
  entry : EntryOk heap b.index
  inside : b.index.toNat + max (b.size.toNat / 0x1000) 1 ≤ L.entries.count

/-- The kernel's memory, with the live allocations. -/
structure KernelLive (L : KernelLayout) (r : KernelRun) (m : Machine) (heap : Heap) : Prop where
  kernel : KernelAt L r.computer m heap
  placed : ∀ b ∈ r.live, BlockPlaced L heap b

section

variable {L : KernelLayout} {c : Computer} {m : Machine} {heap : Heap} {size index start : UInt32}

theorem pages_toNat (size : UInt32) : (size / 0x1000).toNat = size.toNat / 0x1000 := UInt32.toNat_div _ _

/-- The words of a layout's bitmaps are few. -/
theorem KernelLayout.count_lt (L : KernelLayout) : L.frames.count < 2 ^ 20 ∧ L.entries.count < 2 ^ 20 := by
  have hL := L.order
  omega

/-- Placing depends on the heap's start only. -/
theorem BlockPlaced.congr {heap' : Heap} {b : Block} (h : BlockPlaced L heap b)
    (hstart : heap'.start = heap.start) : BlockPlaced L heap' b := by
  have haddr : ∀ i, entryAddr heap' i = entryAddr heap i := fun i => by rw [entryAddr, entryAddr, hstart]
  refine ⟨h.size_aligned, h.addr_eq.trans (haddr _).symm, ?_, h.inside⟩
  have hentry := h.entry
  rwa [EntryOk, ← haddr, ← hstart] at hentry

theorem BlockPlaced.addr_aligned {b : Block} (h : BlockPlaced L heap b) (hready : HeapReady m heap) :
    PageAligned b.addr := by
  rw [h.addr_eq]
  exact entryAddr_aligned hready _

/-- `heap_free` works out the entry that the block came from. -/
theorem BlockPlaced.addrEntry_eq {b : Block} (h : BlockPlaced L heap b) :
    addrEntry heap b.addr = b.index := by
  have hcount := L.count_lt.2
  have hin := h.inside
  apply eq_of_toNat
  rw [h.addr_eq, addrEntry_entryAddr, Nat.mod_eq_of_lt (by omega)]

variable (h : KernelAt L c m heap)

include h

/-- The free frames are the same on both sides. -/
theorem KernelAt.freeCount_eq : c.freeCount L = (freeFrames m).card := by
  have hcount := L.count_lt.1
  have hsize := h.tables.size_eq
  refine congrArg Finset.card (Finset.ext fun f => ?_)
  rw [Finset.mem_filter, Finset.mem_range, mem_freeFrames, hsize]
  constructor
  · rintro ⟨hf, h0⟩
    rw [h.frameTest hf (by omega)] at h0
    exact ⟨hf, by omega, Option.some.inj h0⟩
  · rintro ⟨hf, hf20, h0⟩
    exact ⟨hf, by rw [h.frameTest hf hf20, h0]⟩

/-- **`heap_alloc`** of a request that is clear. -/
theorem KernelAt.alloc (hsize : PageAligned size) (hc : AllocClear L c size index start) :
    CometOS.foundEntry size m = index ∧ heap.start = start ∧
      (¬ EntryOk heap index → c.heapAlloc size c.kernelHeap = some (0, c) ∧
        CometOS.heapAlloc size m = some (0, m)) ∧
      (EntryOk heap index → ∃ c' m',
        c.heapAlloc size c.kernelHeap = some (entryAddr heap index, c') ∧
        CometOS.heapAlloc size m = some (entryAddr heap index, m') ∧
        KernelAt L c' m' { heap with
          bitmap := bitmapMap index (index + size / 0x1000) 1 heap.bitmap } ∧
        PagesMapped L ((entryAddr heap index).toNat / 0x1000)
          ((entryAddr heap index).toNat / 0x1000 + size.toNat / 0x1000) m m') := by
  obtain ⟨hfound, hstart, hin, hblock⟩ := hc
  have hstart' : heap.start = start := Option.some.inj (h.load_heap.1.symm.trans hstart)
  have hin' : index.toNat + max (size / 0x1000).toNat 1 ≤ L.entries.count := by
    rw [pages_toNat]
    exact hin
  refine ⟨h.foundEntry hfound hin', hstart', fun hno => h.allocNone hsize hfound hin' hno, fun hok => ?_⟩
  obtain ⟨htable, hapart, hframes⟩ := hblock (by rw [← hstart']; exact hok.1) (by rw [← hstart']; exact hok.2)
  have hal := (pageAligned_iff _).1 (entryAddr_aligned h.heapReady index)
  have hsz := (pageAligned_iff _).1 hsize
  rw [← hstart'] at htable hapart
  change (entryAddr heap index).toNat + size.toNat ≤ _ at htable
  change (entryAddr heap index).toNat + size.toNat ≤ 0x100000 ∨ _ ≤ (entryAddr heap index).toNat ∨ _ at hapart
  rw [h.freeCount_eq] at hframes
  have hmain := h.heapAlloc hsize hfound hin' hok rfl (by rw [pages_toNat]; omega) (fun j hlo hhi hown => by
    rw [pages_toNat] at hhi
    have hown1 := hown.1
    have hown2 := hown.2
    rcases hapart with hlow | hhigh | h0
    · omega
    · omega
    · rw [h0, UInt32.toNat_zero] at hhi
      omega) (by rw [pages_toNat]; exact hframes)
  rw [pages_toNat] at hmain
  exact hmain

end

section

variable {L : KernelLayout} {r : KernelRun} {m : Machine} {heap : Heap} {op : HeapOp}

/-- A request that is not for whole pages. -/
theorem KernelLive.step_unaligned (h : KernelLive L r m heap) {size : UInt32} (hsize : ¬ PageAligned size) :
    kernelStep r (.alloc size) = some r ∧ heapStep ⟨m, r.live⟩ (.alloc size) = some ⟨m, r.live⟩ := by
  have hcond : size &&& 0xFFF ≠ 0 := hsize
  constructor
  · rw [kernelStep, Computer.heapAlloc, if_neg h.kernel.heap_ne_zero, if_pos hcond, Option.map_some,
      if_pos rfl]
  · rw [heapStep, heapAlloc_unaligned hsize, Option.map_some, if_pos rfl]

/-- **A request.** -/
theorem KernelLive.step_alloc (h : KernelLive L r m heap) {size index start : UInt32}
    (hsize : PageAligned size) (hc : AllocClear L r.computer size index start) :
    (¬ EntryOk heap index → kernelStep r (.alloc size) = some r ∧
      heapStep ⟨m, r.live⟩ (.alloc size) = some ⟨m, r.live⟩) ∧
    (EntryOk heap index → ∃ c' m',
      kernelStep r (.alloc size) = some ⟨c', ⟨entryAddr heap index, size, index⟩ :: r.live⟩ ∧
      heapStep ⟨m, r.live⟩ (.alloc size) = some ⟨m', ⟨entryAddr heap index, size, index⟩ :: r.live⟩ ∧
      KernelLive L ⟨c', ⟨entryAddr heap index, size, index⟩ :: r.live⟩ m' { heap with
        bitmap := bitmapMap index (index + size / 0x1000) 1 heap.bitmap } ∧
      PagesMapped L ((entryAddr heap index).toNat / 0x1000)
        ((entryAddr heap index).toNat / 0x1000 + size.toNat / 0x1000) m m') := by
  obtain ⟨hentry, -, hnone, hsome⟩ := h.kernel.alloc hsize hc
  have hfound : (r.computer.heapEntry size).getD 0 = index := by rw [hc.found, Option.getD_some]
  constructor
  · intro hno
    obtain ⟨hcode, hmach⟩ := hnone hno
    constructor
    · rw [kernelStep, hcode, Option.map_some, if_pos rfl]
    · rw [heapStep, hmach, Option.map_some, if_pos rfl]
  · intro hok
    obtain ⟨c', m', hc', hm', hkernel, hmapped⟩ := hsome hok
    refine ⟨c', m', ?_, ?_, ⟨hkernel, fun b hb => ?_⟩, hmapped⟩
    · rw [kernelStep, hc', Option.map_some, if_neg hok.1, hfound]
    · rw [heapStep, hm', Option.map_some, if_neg hok.1, hentry]
    · rcases List.mem_cons.1 hb with rfl | hb
      · have hplaced : BlockPlaced L heap ⟨entryAddr heap index, size, index⟩ := ⟨hsize, rfl, hok, hc.inside⟩
        exact hplaced.congr rfl
      · exact (h.placed b hb).congr rfl

/-- **Freeing** a live allocation. -/
theorem KernelLive.step_free (h : KernelLive L r m heap) {b : Block} (hb : b ∈ r.live)
    (hlow : b.size = 0 ∨ b.addr.toNat < 0x100000) :
    ∃ c' m', kernelStep r (.free b) = some ⟨c', r.live.erase b⟩ ∧
      r.computer.heapFree b.addr b.size r.computer.kernelHeap = some (1, c') ∧
      heapFree b.addr b.size m = some (1, m') ∧
      KernelLive L ⟨c', r.live.erase b⟩ m' { heap with
        bitmap := bitmapMap b.index (b.index + b.size / 0x1000) 0 heap.bitmap } := by
  have hplaced := h.placed b hb
  have hin := hplaced.inside
  obtain ⟨c', m', hc', hm', hkernel⟩ := h.kernel.heapFree (hplaced.addr_aligned h.kernel.heapReady)
    hplaced.size_aligned (by rw [hplaced.addrEntry_eq, pages_toNat]; omega) hlow
  rw [hplaced.addrEntry_eq] at hkernel
  refine ⟨c', m', ?_, hc', hm', hkernel, fun x hx => (h.placed x (List.mem_of_mem_erase hx)).congr rfl⟩
  rw [kernelStep, if_pos hb, hc', Option.map_some]

omit op in
theorem KernelAt.live {c : Computer} (h : KernelAt L c m heap) : KernelLive L ⟨c, []⟩ m heap :=
  ⟨h, fun _ hb => absurd hb List.not_mem_nil⟩

/-- **One call** that returns: the machine's call leaves the same allocations. -/
theorem KernelLive.step (h : KernelLive L r m heap) (hc : Clear L r op) {r' : KernelRun}
    (hs : kernelStep r op = some r') : ∃ m' heap', heapStep ⟨m, r.live⟩ op = some ⟨m', r'.live⟩ ∧
      KernelLive L r' m' heap' ∧ heap'.start = heap.start := by
  cases op with
  | alloc size =>
    by_cases hsize : PageAligned size
    · obtain ⟨index, start, hclear⟩ := hc hsize
      obtain ⟨hnone, hsome⟩ := h.step_alloc hsize hclear
      by_cases hok : EntryOk heap index
      · obtain ⟨c', m', hc', hm', hlive, -⟩ := hsome hok
        obtain rfl := Option.some.inj (hs.symm.trans hc')
        exact ⟨m', _, hm', hlive, rfl⟩
      · obtain ⟨hc', hm'⟩ := hnone hok
        obtain rfl := Option.some.inj (hs.symm.trans hc')
        exact ⟨m, heap, hm', h, rfl⟩
    · obtain ⟨hc', hm'⟩ := h.step_unaligned hsize
      obtain rfl := Option.some.inj (hs.symm.trans hc')
      exact ⟨m, heap, hm', h, rfl⟩
  | free b =>
    have hb : b ∈ r.live := by
      by_contra hb
      rw [kernelStep, if_neg hb] at hs
      cases hs
    obtain ⟨c', m', hc', -, hm', hlive⟩ := h.step_free hb (hc hb)
    obtain rfl := Option.some.inj (hs.symm.trans hc')
    refine ⟨m', _, ?_, hlive, rfl⟩
    rw [heapStep, if_pos (show b ∈ (⟨m, r.live⟩ : HeapRun).live from hb), hm', Option.map_some]

end

/-- **All along a run** of clear calls. -/
theorem KernelLive.run {L : KernelLayout} {r r' : KernelRun} {m : Machine} {heap : Heap}
    (h : KernelLive L r m heap) {ops : List HeapOp} (hc : Permitted kernelStep (Clear L) r ops)
    (hr : run kernelStep r ops = some r') : ∃ m' heap', KernelLive L r' m' heap' := by
  refine run_of_permitted (I := fun r => ∃ m heap, KernelLive L r m heap) ?_ ops r r' ⟨m, heap, h⟩ hc hr
  rintro r op r' ⟨m, heap, hlive⟩ hclear hs
  obtain ⟨m', heap', -, hlive', -⟩ := hlive.step hclear hs
  exact ⟨m', heap', hlive'⟩

/-- A clear request returns, and the live allocations stay. -/
theorem KernelLive.request {L : KernelLayout} {r : KernelRun} {m : Machine} {heap : Heap} {size : UInt32}
    (h : KernelLive L r m heap) (hc : Clear L r (.alloc size)) :
    ∃ r', kernelStep r (.alloc size) = some r' ∧ ∀ b ∈ r.live, b ∈ r'.live := by
  by_cases hsize : PageAligned size
  · obtain ⟨index, start, hclear⟩ := hc hsize
    obtain ⟨hnone, hsome⟩ := h.step_alloc hsize hclear
    by_cases hok : EntryOk heap index
    · obtain ⟨c', m', hc', -⟩ := hsome hok
      exact ⟨_, hc', fun b hb => List.mem_cons_of_mem _ hb⟩
    · exact ⟨r, (hnone hok).1, fun _ hb => hb⟩
  · exact ⟨r, (h.step_unaligned hsize).1, fun _ hb => hb⟩

/-! ### Requests for one page -/

/-- Freeing uses up no frame. -/
theorem heapFree_frees {m m' : Machine} {heap : Heap} (h : HeapReady m heap) {addr size x : UInt32}
    (haddr : PageAligned addr) (hsize : PageAligned size) (hrun : heapFree addr size m = some (x, m')) :
    freeFrames m ⊆ freeFrames m' := by
  rw [heapFree_run h hsize] at hrun
  obtain ⟨m₂, hm₂, hx⟩ := Option.map_eq_some_iff.1 hrun
  obtain ⟨-, rfl⟩ := Prod.mk.inj hx
  obtain ⟨y, hy, ⟨hsame, hzero⟩, -⟩ := heapUnmap_spec (m := markHeap (addrEntry heap addr)
      (addrEntry heap addr + size / 0x1000) 0 heap m)
    (fun y => y.2.frameBitmap.size = m.frameBitmap.size ∧
      ∀ i, m.frameBitmap.words i = 0 → y.2.frameBitmap.words i = 0)
    (haddr.add hsize) haddr ⟨rfl, fun _ h0 => h0⟩ (by
      rintro ⟨u, m₁⟩ ⟨hsame, hzero⟩ - -
      refine ⟨?_, fun i h0 => ?_⟩
      · rw [unmapTurn, pageUnmap_frames]
        exact hsame
      · rw [unmapTurn, pageUnmap_frames, frameFree_words]
        split
        · rfl
        · exact hzero i h0)
  obtain rfl := Option.some.inj (hm₂.symm.trans hy)
  intro f hf
  obtain ⟨hfs, hf20, h0⟩ := mem_freeFrames.1 hf
  exact mem_freeFrames.2 ⟨hsame.symm ▸ hfs, hf20, hzero _ h0⟩

section

variable {L : KernelLayout} {r : KernelRun} {m : Machine} {heap : Heap}

/-- The entries from `t` on are free. -/
def FreshFrom (L : KernelLayout) (heap : Heap) (t : ℕ) : Prop :=
  ∀ i : UInt32, t ≤ i.toNat → i.toNat < L.entries.count → heap.bitmap.words i = 0

theorem FreshFrom.map {t : ℕ} (h : FreshFrom L heap t) (start stop : UInt32) {value : UInt32}
    (hv : value = 0 ∨ stop.toNat ≤ t + 1) :
    FreshFrom L { heap with bitmap := bitmapMap start stop value heap.bitmap } (t + 1) := by
  intro i hi hcount
  show (bitmapMap start stop value heap.bitmap).words i = 0
  rw [(bitmapMap_words start stop value heap.bitmap).2 i]
  split
  · rename_i hrange
    rcases hv with hv | hv
    · exact hv
    · have hlt := UInt32.lt_iff_toNat_lt.1 hrange.2.2
      omega
  · exact h i (by omega) hcount

/-- A request is found no later than where the entries are known to be free. -/
theorem KernelLive.found_fresh (h : KernelLive L r m heap) {t : ℕ} (size : UInt32)
    (hfresh : FreshFrom L heap t) (ht : t + max (size.toNat / 0x1000) 1 ≤ L.entries.count) :
    ∃ index, r.computer.heapEntry size = some index ∧ index.toNat ≤ t := by
  have hcount := h.kernel.heapAt.bitmap.count_eq
  have hlt := L.count_lt.2
  have htn : (UInt32.ofNat t).toNat = t := toNat_ofNat_of_lt (by omega)
  have hrunt : RunAt heap.bitmap 0 (UInt32.ofNat t) (max (size / 0x1000).toNat 1) := by
    intro x hx
    rw [pages_toNat] at hx
    have htx : (UInt32.ofNat t + UInt32.ofNat x).toNat = t + x := by
      rw [← UInt32.ofNat_add, toNat_ofNat_of_lt (by omega)]
    exact hfresh _ (by omega) (by omega)
  have hfind := bitmapEntrieFind_spec (h.kernel.heapReady.find size)
  obtain ⟨index, hindex⟩ : ∃ index, foundEntry size m = index := ⟨_, rfl⟩
  rw [hindex] at hfind
  have hit : index.toNat ≤ t := by
    cases hfind with
    | found _ _ _ hfirst =>
      by_contra hti
      exact hfirst (UInt32.ofNat t) (by rw [UInt32.lt_iff_toNat_lt, htn]; omega) hrunt
    | notFound hno => exact absurd hrunt (hno _ (UInt32.le_iff_toNat_le.2 (by omega)))
  refine ⟨index, ?_, hit⟩
  rw [Computer.heapEntry, h.kernel.load_heap.2.2, Option.bind_some]
  refine h.kernel.heapAt.bitmap.find h.kernel.entries_seen ?_ hfind
  rw [pages_toNat]
  omega

/-- **A request for one page** is clear, while an entry is known to be free, the heap's pages are clear of
the memory code's, and there is a free frame. -/
theorem KernelLive.clear_page (h : KernelLive L r m heap) {t : ℕ} (hfresh : FreshFrom L heap t)
    (ht : t < L.entries.count) (hframe : 0 < (freeFrames m).card) (htable : heap.start.toNat < 0x400000)
    (hlow : heap.start.toNat < 0x100000 ∨ 0x1000 * (L.pages + 2 + t) ≤ heap.start.toNat) :
    ∃ index, AllocClear L r.computer 0x1000 index heap.start ∧ index.toNat ≤ t := by
  have hlt := L.count_lt.2
  have hone : max ((0x1000 : UInt32).toNat / 0x1000) 1 = 1 := rfl
  obtain ⟨index, hindex, hit⟩ : ∃ index, r.computer.heapEntry 0x1000 = some index ∧ index.toNat ≤ t :=
    h.found_fresh 0x1000 hfresh (by rw [hone]; omega)
  refine ⟨index, ⟨hindex, h.kernel.load_heap.1, by rw [hone]; omega, fun h0 hle => ?_⟩, hit⟩
  have hsum := entryOk_addr h.kernel.start_aligned (i := index) ⟨h0, hle⟩
  have hal := (pageAligned_iff _).1 (entryAddr_aligned h.kernel.heapReady index)
  rw [entryAddr] at hsum hal
  rw [Nat.mod_eq_of_lt (by omega)] at hsum
  have hpage : (0x1000 : UInt32).toNat = 0x1000 := rfl
  refine ⟨by omega, ?_, ?_⟩
  · rcases hlow with hlow | hhigh
    · exact Or.inl (by omega)
    · exact Or.inr (Or.inl (by omega))
  · rw [h.kernel.freeCount_eq, hpage]
    exact hframe

end

/-- A request for one page; or, in a heap below the first MiB, a `heap_free`. -/
def PageCall (start : UInt32) : HeapOp → Prop
  | .alloc size => size = 0x1000
  | .free _ => start.toNat < 0x100000

instance (start : UInt32) : DecidablePred (PageCall start)
  | .alloc _ => inferInstanceAs (Decidable (_ = _))
  | .free _ => inferInstanceAs (Decidable (_ < _))

/-- After `t` calls: the entries from `t` on are free, and so are `n` frames. -/
def PageRoom (L : KernelLayout) (start : UInt32) (t n : ℕ) (r : KernelRun) : Prop :=
  ∃ m heap, KernelLive L r m heap ∧ heap.start = start ∧ FreshFrom L heap t ∧ n ≤ (freeFrames m).card

section

variable {L : KernelLayout} {start : UInt32} {r r' : KernelRun} {op : HeapOp} {t n low : ℕ}

theorem PageRoom.clear (h : PageRoom L start t (n + 1) r) (ht : t < L.entries.count)
    (htable : start.toNat < 0x400000)
    (hplace : start.toNat < 0x100000 ∨ 0x1000 * (L.pages + 2 + t) ≤ start.toNat)
    (habove : low ≤ start.toNat - 0x1000 * t) (hop : PageCall start op) :
    Clear L r op ∧ StaysAbove low r op := by
  obtain ⟨m, heap, hlive, rfl, hfresh, hframes⟩ := h
  cases op with
  | alloc size =>
    obtain rfl : size = 0x1000 := hop
    obtain ⟨index, hclear, hit⟩ := hlive.clear_page hfresh ht (by omega) htable hplace
    refine ⟨fun _ => ⟨index, _, hclear⟩, fun _ _ i s hi hs h0 hle => ?_⟩
    obtain rfl := Option.some.inj (hclear.found.symm.trans hi)
    obtain rfl := Option.some.inj (hclear.start_eq.symm.trans hs)
    have hcount := L.count_lt.2
    have hsum := entryOk_addr hlive.kernel.start_aligned (i := index) ⟨h0, hle⟩
    rw [entryAddr, Nat.mod_eq_of_lt (by omega)] at hsum
    omega
  | free b =>
    have hstart : heap.start.toNat < 0x100000 := hop
    refine ⟨fun hb => Or.inr ?_, trivial⟩
    have hplaced := hlive.placed b hb
    have hle := UInt32.le_iff_toNat_le.1 hplaced.entry.2
    rw [← hplaced.addr_eq] at hle
    omega

/-- One call uses up an entry and a frame at most. -/
theorem PageRoom.step (h : PageRoom L start t (n + 1) r) (ht : t < L.entries.count)
    (htable : start.toNat < 0x400000)
    (hplace : start.toNat < 0x100000 ∨ 0x1000 * (L.pages + 2 + t) ≤ start.toNat) (hop : PageCall start op)
    (hs : kernelStep r op = some r') : PageRoom L start (t + 1) n r' := by
  have hc := (h.clear ht htable hplace (Nat.zero_le _) hop).1
  obtain ⟨m, heap, hlive, rfl, hfresh, hframes⟩ := h
  cases op with
  | alloc size =>
    obtain rfl : size = 0x1000 := hop
    obtain ⟨index, hclear, hit⟩ := hlive.clear_page hfresh ht (by omega) htable hplace
    obtain ⟨hnone, hsome⟩ := hlive.step_alloc (show PageAligned 0x1000 by decide) hclear
    by_cases hok : EntryOk heap index
    · obtain ⟨c', m', hc', -, hlive', hmapped⟩ := hsome hok
      obtain rfl := Option.some.inj (hs.symm.trans hc')
      have hcard := hmapped.card
      have hnext : (index + 0x1000 / 0x1000).toNat ≤ t + 1 := by
        have hcount := L.count_lt.2
        rw [toNat_add_of_lt] <;> rw [show ((0x1000 : UInt32) / 0x1000).toNat = 1 from rfl] <;> omega
      rw [show (0x1000 : UInt32).toNat / 0x1000 = 1 from rfl] at hcard
      exact ⟨m', _, hlive', rfl, hfresh.map _ _ (Or.inr hnext), by omega⟩
    · obtain rfl := Option.some.inj (hs.symm.trans (hnone hok).1)
      exact ⟨m, heap, hlive, rfl, fun i hi hcount => hfresh i (by omega) hcount, by omega⟩
  | free b =>
    have hb : b ∈ r.live := by
      by_contra hb
      rw [kernelStep, if_neg hb] at hs
      cases hs
    have hplaced := hlive.placed b hb
    obtain ⟨c', m', hc', -, hm', hlive'⟩ := hlive.step_free hb (hc hb)
    obtain rfl := Option.some.inj (hs.symm.trans hc')
    have hsub := Finset.card_le_card (heapFree_frees hlive.kernel.heapReady
      (hplaced.addr_aligned hlive.kernel.heapReady) hplaced.size_aligned hm')
    exact ⟨m', _, hlive', rfl, hfresh.map _ _ (Or.inl rfl), by omega⟩

end

section

variable {L : KernelLayout} {start : UInt32} {n : ℕ}

/-- **Runs of one-page requests are clear**, while there are entries and frames for them, and the heap is
below the first MiB or its pages are behind the table.  They go down from the heap's start. -/
theorem permitted_pages (low : ℕ) (htable : start.toNat < 0x400000) :
    ∀ (ops : List HeapOp) (r : KernelRun) (t : ℕ), PageRoom L start t (ops.length + n) r →
      t + ops.length ≤ L.entries.count →
      (start.toNat < 0x100000 ∨ 0x1000 * (L.pages + 1 + t + ops.length) ≤ start.toNat) →
      low ≤ start.toNat - 0x1000 * (t + ops.length) → (∀ op ∈ ops, PageCall start op) →
        Permitted kernelStep (fun r op => Clear L r op ∧ StaysAbove low r op) r ops ∧
          ∀ r', run kernelStep r ops = some r' → PageRoom L start (t + ops.length) n r' := by
  intro ops
  induction ops with
  | nil =>
    intro r t h _ _ _ _
    rw [List.length_nil, Nat.zero_add] at h
    exact ⟨trivial, fun r' hr => Option.some.inj hr ▸ h⟩
  | cons op ops ih =>
    intro r t h hentries hplace habove hcalls
    obtain ⟨hop, hops⟩ := List.forall_mem_cons.1 hcalls
    rw [List.length_cons] at h hentries hplace habove ⊢
    rw [show ops.length + 1 + n = ops.length + n + 1 by omega] at h
    have hhere : start.toNat < 0x100000 ∨ 0x1000 * (L.pages + 2 + t) ≤ start.toNat :=
      hplace.imp id fun hhigh => by omega
    have hnext := fun r' hs => ih r' (t + 1) (h.step (by omega) htable hhere hop hs) (by omega)
      (hplace.imp id fun hhigh => by omega) (by omega) hops
    refine ⟨⟨h.clear (by omega) htable hhere (by omega) hop, fun r' hs => (hnext r' hs).1⟩, fun r' hr => ?_⟩
    rw [run_cons] at hr
    obtain ⟨r₁, hs, hr⟩ := Option.bind_eq_some_iff.1 hr
    have hroom := (hnext r₁ hs).2 r' hr
    rwa [show t + 1 + ops.length = t + (ops.length + 1) by omega] at hroom

end

/-! ### After booting -/

section

variable {L : KernelLayout} {memUpper : UInt32} {m : Machine} {heap : Heap}

theorem Booted.fresh (hb : Booted L memUpper m heap) : FreshFrom L heap 0 := fun i _ hi => hb.entries i hi

/-- The free frames are those behind the table. -/
theorem Booted.freeFrames_eq {c : Computer} (hb : Booted L memUpper m heap) (h : KernelAt L c m heap) :
    freeFrames m = Finset.Ico (L.pages + 2) L.frames.count := by
  have hcount := L.count_lt.1
  ext f
  rw [mem_freeFrames, h.tables.size_eq, Finset.mem_Ico]
  constructor
  · rintro ⟨hf, hf20, h0⟩
    have hle := (hb.frames _ (by rw [toNat_ofNat_of_lt (by omega)]; exact hf)).1 h0
    rw [toNat_ofNat_of_lt (by omega)] at hle
    exact ⟨hle, hf⟩
  · rintro ⟨hle, hf⟩
    have hfn : (UInt32.ofNat f).toNat = f := toNat_ofNat_of_lt (by omega)
    exact ⟨hf, by omega, (hb.frames _ (by omega)).2 (by omega)⟩

/-- With frames enough behind the table, a block is clear. -/
theorem Booted.blockClear {c : Computer} (hb : Booted L memUpper m heap) (h : KernelAt L c m heap)
    {addr size : UInt32} (htable : addr.toNat + size.toNat ≤ 0x400000)
    (hapart : addr.toNat + size.toNat ≤ 0x100000 ∨ (L.pages + 2) * 0x1000 ≤ addr.toNat ∨ size = 0)
    (hframes : size.toNat / 0x1000 + (L.pages + 2) ≤ L.frames.count) : BlockClear L c addr size := by
  refine ⟨htable, hapart, ?_⟩
  rw [h.freeCount_eq, hb.freeFrames_eq h, Nat.card_Ico]
  omega

/-- **Runs of one-page requests from booting** are clear, and leave room. -/
theorem Booted.permitted_pages {c : Computer} (hb : Booted L memUpper m heap) (h : KernelAt L c m heap)
    (n : ℕ) (ops : List HeapOp) (htable : memUpper.toNat < 0x400000) (hentries : ops.length ≤ L.entries.count)
    (hframes : ops.length + n + (L.pages + 2) ≤ L.frames.count)
    (hlow : memUpper.toNat < 0x100000 ∨ 0x1000 * (L.pages + 2 + ops.length) ≤ memUpper.toNat)
    (hcalls : ∀ op ∈ ops, PageCall memUpper op) :
    Permitted kernelStep (fun r op => Clear L r op ∧
        StaysAbove (memUpper.toNat / 0x1000 * 0x1000 - 0x1000 * ops.length) r op) ⟨c, []⟩ ops ∧
      ∀ r', run kernelStep ⟨c, []⟩ ops = some r' →
        PageRoom L (memUpper &&& 0xFFFFF000) ops.length n r' := by
  have hstart := toNat_and_page memUpper
  have hroom : PageRoom L (memUpper &&& 0xFFFFF000) 0 (ops.length + n) ⟨c, []⟩ := by
    refine ⟨m, heap, h.live, hb.start_eq, hb.fresh, ?_⟩
    rw [hb.freeFrames_eq h, Nat.card_Ico]
    omega
  have hpages := CometOS.permitted_pages
    (memUpper.toNat / 0x1000 * 0x1000 - 0x1000 * ops.length) (by omega) ops ⟨c, []⟩ 0 hroom (by omega)
    (hlow.imp (fun hl => by omega) fun hh => by omega) (by omega) fun op hop => by
      have hcall := hcalls op hop
      cases op with
      | alloc size => exact hcall
      | free b =>
        change memUpper.toNat < 0x100000 at hcall
        show (memUpper &&& 0xFFFFF000).toNat < 0x100000
        omega
  rwa [Nat.zero_add] at hpages

/-- **The first request.**  It comes out at the heap's top page, from which the block goes up. -/
theorem Booted.first_alloc {c : Computer} (hb : Booted L memUpper m heap) (h : KernelAt L c m heap)
    {size : UInt32} (hsize : PageAligned size) (hup : 0x1000 ≤ memUpper.toNat)
    (hentries : max (size.toNat / 0x1000) 1 ≤ L.entries.count)
    (hblock : BlockClear L c (memUpper &&& 0xFFFFF000) size) :
    AllocClear L c size 0 (memUpper &&& 0xFFFFF000) ∧ EntryOk heap 0 ∧ ∃ c' m',
      kernelStep ⟨c, []⟩ (.alloc size) = some ⟨c', [⟨memUpper &&& 0xFFFFF000, size, 0⟩]⟩ ∧
      KernelLive L ⟨c', [⟨memUpper &&& 0xFFFFF000, size, 0⟩]⟩ m' { heap with
        bitmap := bitmapMap 0 (0 + size / 0x1000) 1 heap.bitmap } ∧
      PagesMapped L (memUpper.toNat / 0x1000) (memUpper.toNat / 0x1000 + size.toNat / 0x1000) m m' := by
  obtain ⟨index, hindex, h0⟩ := h.live.found_fresh size hb.fresh (by omega)
  obtain rfl : index = 0 := eq_of_toNat (by rw [UInt32.toNat_zero]; omega)
  have hfirst : heap.start - 0 * 0x1000 = memUpper &&& 0xFFFFF000 := by
    rw [UInt32.zero_mul, UInt32.sub_zero, hb.start_eq]
  have hstart := toNat_and_page memUpper
  have hclear : AllocClear L c size 0 heap.start := by
    refine ⟨hindex, h.load_heap.1, ?_, fun _ _ => by rwa [hfirst]⟩
    rw [UInt32.toNat_zero]
    omega
  have hok : EntryOk heap 0 := by
    rw [EntryOk, entryAddr, hfirst, hb.start_eq]
    refine ⟨fun hz => ?_, UInt32.le_refl _⟩
    rw [hz, UInt32.toNat_zero] at hstart
    omega
  obtain ⟨c', m', hc', -, hlive, hmapped⟩ := (h.live.step_alloc hsize hclear).2 hok
  rw [show entryAddr heap 0 = memUpper &&& 0xFFFFF000 from hfirst] at hc' hlive hmapped
  rw [show (memUpper &&& 0xFFFFF000).toNat / 0x1000 = memUpper.toNat / 0x1000 by omega] at hmapped
  exact ⟨hb.start_eq ▸ hclear, hok, c', m', hc', hlive, hmapped⟩

end

end CometOS
