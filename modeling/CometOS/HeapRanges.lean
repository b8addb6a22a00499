import CometOS.Heap

/-!
# Where the live allocations lie

Bitmap entries count up from the start of the heap while the pages they stand for go down from it,
and a block is mapped upwards from its first page.  For blocks of one page the two agree.  The
first longer block reaches over the pages of entries before its own, or past the top of the heap.
-/

namespace CometOS

open Run Word32

/-- The calls as their users make them: sizes are whole pages, at least one. -/
def pageStep (r : HeapRun) : HeapOp → Option HeapRun
  | .alloc size => if size ≠ 0 ∧ PageAligned size then heapStep r (.alloc size) else none
  | .free block => heapStep r (.free block)

/-- What the live allocations should be: inside `[heap->end, heap->start + 0x1000)` and disjoint. -/
structure RangesOk (r : HeapRun) : Prop where
  inside : ∃ heap, r.machine.kernelHeap = some heap ∧ ∀ b ∈ r.live,
    heap.stop.toNat ≤ b.addr.toNat ∧ b.addr.toNat + b.size.toNat ≤ heap.start.toNat + 0x1000
  disjoint : r.live.Pairwise fun a b =>
    a.addr.toNat + a.size.toNat ≤ b.addr.toNat ∨ b.addr.toNat + b.size.toNat ≤ a.addr.toNat

/-- The first run of `n` free entries, if there is one, starts at an entry of a page of the heap. -/
def HasRoom (heap : Heap) (n : ℕ) : Prop := ∃ i, FindResult heap.bitmap 0 n i ∧ EntryOk heap i

/-- The calls that keep entries and pages in step: a request for one page, a request there is no
room for, and any `heap_free`. -/
def OnePageOrNoRoom (r : HeapRun) : HeapOp → Prop
  | .alloc size => size = 0x1000 ∨
      ∀ heap, r.machine.kernelHeap = some heap → ¬ HasRoom heap (max (size / 0x1000).toNat 1)
  | .free _ => True

/-! ### Entries and pages -/

/-- The number of pages below the heap's first. -/
def heapPages (heap : Heap) : ℕ := heap.start.toNat / 0x1000

/-- Only the entry number modulo `2 ^ 20` matters for the page. -/
theorem entryAddr_toNat {heap : Heap} (hs : PageAligned heap.start) (i : UInt32) :
    if i.toNat % 2 ^ 20 ≤ heapPages heap then
      (entryAddr heap i).toNat = heap.start.toNat - i.toNat % 2 ^ 20 * 0x1000
    else heap.start.toNat < (entryAddr heap i).toNat := by
  have hmul : (i * 0x1000).toNat = i.toNat % 2 ^ 20 * 0x1000 := by
    rw [UInt32.toNat_mul]
    simp only [UInt32.reduceToNat]
    omega
  have hpages : heap.start.toNat = heapPages heap * 0x1000 := by
    rw [pageAligned_iff] at hs
    rw [heapPages]
    omega
  unfold entryAddr
  split
  · rw [toNat_sub_of_le (by rw [hmul]; omega), hmul]
  · rw [toNat_sub_of_lt (by rw [hmul]; omega), hmul]
    omega

theorem entryOk_iff {heap : Heap} (hs : PageAligned heap.start) (i : UInt32) :
    EntryOk heap i ↔ i.toNat % 2 ^ 20 < heapPages heap := by
  have h := entryAddr_toNat hs i
  have hpages : heap.start.toNat = heapPages heap * 0x1000 := by
    rw [pageAligned_iff] at hs
    rw [heapPages]
    omega
  unfold EntryOk
  rw [Ne, ← UInt32.toNat_inj, UInt32.toNat_zero, UInt32.le_iff_toNat_le]
  split at h
  · rw [h]
    omega
  · omega

theorem entryOk_addr {heap : Heap} (hs : PageAligned heap.start) {i : UInt32}
    (h : EntryOk heap i) :
    (entryAddr heap i).toNat + i.toNat % 2 ^ 20 * 0x1000 = heap.start.toNat := by
  have hlt := (entryOk_iff hs i).1 h
  have haddr := entryAddr_toNat hs i
  rw [if_pos (by omega)] at haddr
  rw [haddr]
  rw [heapPages] at hlt
  omega

/-- `heap_free` finds the entry back, of a block below entry `2 ^ 20`. -/
theorem addrEntry_entryAddr {heap : Heap} (i : UInt32) :
    (addrEntry heap (entryAddr heap i)).toNat = i.toNat % 2 ^ 20 := by
  have hsub : heap.start - entryAddr heap i = i * 0x1000 := by
    unfold entryAddr
    grind
  rw [addrEntry, hsub, UInt32.toNat_div, UInt32.toNat_mul]
  simp only [UInt32.reduceToNat]
  omega

/-! ### The invariant of one-page blocks -/

/-- Entries and pages in step: each live block is the page of its entry, and among the entries of
pages the used ones are theirs. -/
structure PagesLive (r : HeapRun) (heap : Heap) : Prop where
  ready : HeapReady r.machine heap
  stop_eq : heap.stop = 0
  size_ge : 2 * heapPages heap ≤ heap.bitmap.size.toNat
  block : ∀ b ∈ r.live, b.size = 0x1000 ∧ b.addr = entryAddr heap b.index ∧
    b.index.toNat < heapPages heap
  distinct : (r.live.map Block.index).Nodup
  used : ∀ i : UInt32, i.toNat < heapPages heap →
    (heap.bitmap.words i ≠ 0 ↔ i ∈ r.live.map Block.index)
  free : ∀ i : UInt32, heapPages heap ≤ i.toNat → i < heap.bitmap.size →
    heap.bitmap.words i = 0

def PagesInv (r : HeapRun) : Prop := ∃ heap, PagesLive r heap

theorem heapPages_le {heap : Heap} : heapPages heap < 2 ^ 20 := by
  have := heap.start.toNat_lt
  rw [heapPages]
  omega

/-- The page of a live block, counted from the top of the heap. -/
theorem PagesLive.addr_eq {r : HeapRun} {heap : Heap} (h : PagesLive r heap) {b : Block}
    (hb : b ∈ r.live) : b.addr.toNat + b.index.toNat * 0x1000 = heap.start.toNat ∧
      EntryOk heap b.index := by
  obtain ⟨-, haddr, hlt⟩ := h.block b hb
  have hpages : heapPages heap < 2 ^ 20 := heapPages_le
  have hok := (entryOk_iff h.ready.start_aligned b.index).2 (by omega)
  have hsum := entryOk_addr h.ready.start_aligned hok
  rw [Nat.mod_eq_of_lt (by omega), ← haddr] at hsum
  exact ⟨hsum, hok⟩

theorem PagesLive.rangesOk {r : HeapRun} {heap : Heap} (h : PagesLive r heap) : RangesOk r := by
  refine ⟨⟨heap, h.ready.heap_eq, fun b hb => ?_⟩, ?_⟩
  · obtain ⟨hsize, -, -⟩ := h.block b hb
    obtain ⟨haddr, -⟩ := h.addr_eq hb
    rw [hsize, h.stop_eq]
    simp only [UInt32.reduceToNat]
    omega
  · have hnd := h.distinct
    rw [List.Nodup, List.pairwise_map] at hnd
    refine hnd.imp_of_mem fun {a b} ha hb hne => ?_
    obtain ⟨hsa, -, -⟩ := h.block a ha
    obtain ⟨hsb, -, -⟩ := h.block b hb
    have haa := (h.addr_eq ha).1
    have hab := (h.addr_eq hb).1
    have hne' := toNat_ne hne
    rw [hsa, hsb]
    simp only [UInt32.reduceToNat]
    omega

/-- A search for one free entry comes out at a page's entry, or at none. -/
theorem PagesLive.find_one {r : HeapRun} {heap : Heap} (h : PagesLive r heap) {i : UInt32}
    (hfind : FindResult heap.bitmap 0 1 i) (hok : EntryOk heap i) :
    i.toNat < heapPages heap ∧ heap.bitmap.words i = 0 := by
  have hs := h.ready.start_aligned
  have hpages : heapPages heap < 2 ^ 20 := heapPages_le
  have hlt := (entryOk_iff hs i).1 hok
  have hge := h.size_ge
  cases hfind with
  | found _ hle hrun hfirst =>
    have h0 : heap.bitmap.words i = 0 := by
      have := hrun 0 (by omega)
      rwa [show i + UInt32.ofNat 0 = i from UInt32.add_zero i] at this
    refine ⟨?_, h0⟩
    by_contra hno
    -- the entry behind the last page is free, and comes before `i`
    have hne : i.toNat ≠ heapPages heap := by
      intro he
      rw [he] at hlt
      omega
    have hn : (UInt32.ofNat (heapPages heap)).toNat = heapPages heap :=
      toNat_ofNat_of_lt (by omega)
    refine hfirst (UInt32.ofNat (heapPages heap)) ?_ ?_
    · rw [UInt32.lt_iff_toNat_lt, hn]
      omega
    · intro x hx
      obtain rfl : x = 0 := by omega
      rw [show UInt32.ofNat (heapPages heap) + UInt32.ofNat 0 = UInt32.ofNat (heapPages heap) from
        UInt32.add_zero _]
      rw [UInt32.le_iff_toNat_le] at hle
      exact h.free _ (by rw [hn]) (by rw [UInt32.lt_iff_toNat_lt, hn]; omega)
  | notFound _ =>
    rw [show (-1 : UInt32).toNat = 2 ^ 32 - 1 from rfl] at hlt
    omega

/-! ### The steps -/

theorem mapRange_one {size index : UInt32} (h : index.toNat < size.toNat) (j : UInt32) :
    MapRange size index (index + 0x1000 / 0x1000) j ↔ j = index := by
  have hs := size.toNat_lt
  have h1 : (index + 0x1000 / 0x1000).toNat = index.toNat + 1 :=
    toNat_add_of_lt (by rw [show ((0x1000 : UInt32) / 0x1000).toNat = 1 from rfl]; omega)
  rw [MapRange, UInt32.le_iff_toNat_le, UInt32.le_iff_toNat_le, UInt32.lt_iff_toNat_lt, h1,
    ← UInt32.toNat_inj]
  omega

/-- The entries of the blocks that stay. -/
theorem mem_map_erase {live : List Block} (hnd : (live.map Block.index).Nodup) {b : Block}
    (hb : b ∈ live) (i : UInt32) :
    i ∈ (live.erase b).map Block.index ↔ i ∈ live.map Block.index ∧ i ≠ b.index := by
  have hlive : live.Nodup := hnd.of_map
  simp only [List.mem_map, hlive.mem_erase_iff]
  constructor
  · rintro ⟨x, ⟨hne, hx⟩, rfl⟩
    exact ⟨⟨x, hx, rfl⟩, fun he => hne (List.inj_on_of_nodup_map hnd hx hb he)⟩
  · rintro ⟨⟨x, hx, rfl⟩, hne⟩
    exact ⟨x, ⟨fun he => hne (by rw [he]), hx⟩, rfl⟩

/-- Allocating a page adds its entry. -/
theorem PagesLive.alloc {r : HeapRun} {heap : Heap} (h : PagesLive r heap) {i : UInt32}
    {m' : Machine} (hlt : i.toNat < heapPages heap) (h0 : heap.bitmap.words i = 0)
    (hk : Keeps (markHeap i (i + 0x1000 / 0x1000) 1 heap r.machine) m') :
    PagesInv ⟨m', ⟨entryAddr heap i, 0x1000, i⟩ :: r.live⟩ := by
  obtain ⟨hsize, hwords⟩ := bitmapMap_words i (i + 0x1000 / 0x1000) 1 heap.bitmap
  have hge := h.size_ge
  have hone : ∀ j, MapRange heap.bitmap.size i (i + 0x1000 / 0x1000) j ↔ j = i :=
    mapRange_one (lt_of_lt_of_le hlt (by omega))
  simp only [hone] at hwords
  have hnew : i ∉ r.live.map Block.index := fun hm => (h.used i hlt).2 hm h0
  refine ⟨_, h.ready.mark hk, h.stop_eq, ?_, ?_, ?_, ?_, ?_⟩
  · show 2 * heapPages heap ≤ (bitmapMap i (i + 0x1000 / 0x1000) 1 heap.bitmap).size.toNat
    rw [hsize]
    exact hge
  · intro b hb
    rcases List.mem_cons.1 hb with rfl | hb
    · exact ⟨rfl, rfl, hlt⟩
    · exact h.block b hb
  · exact List.nodup_cons.2 ⟨hnew, h.distinct⟩
  · intro j hj
    show (bitmapMap i (i + 0x1000 / 0x1000) 1 heap.bitmap).words j ≠ 0 ↔ _
    rw [hwords j, List.map_cons, List.mem_cons]
    by_cases hji : j = i
    · simp [hji]
    · rw [if_neg hji, h.used j hj]
      simp [hji]
  · intro j hj hjs
    show (bitmapMap i (i + 0x1000 / 0x1000) 1 heap.bitmap).words j = 0
    change j < (bitmapMap i (i + 0x1000 / 0x1000) 1 heap.bitmap).size at hjs
    change heapPages heap ≤ j.toNat at hj
    rw [hsize] at hjs
    rw [hwords j, if_neg (by rintro rfl; omega)]
    exact h.free j hj hjs

/-- Freeing a page takes its entry away. -/
theorem PagesLive.free_block {r : HeapRun} {heap : Heap} (h : PagesLive r heap) {b : Block}
    {m' : Machine} (hb : b ∈ r.live)
    (hk : Keeps (markHeap (addrEntry heap b.addr) (addrEntry heap b.addr + b.size / 0x1000) 0 heap
      r.machine) m') : PagesInv ⟨m', r.live.erase b⟩ := by
  obtain ⟨hbsize, haddr, hlt⟩ := h.block b hb
  have hpages : heapPages heap < 2 ^ 20 := heapPages_le
  have hentry : addrEntry heap b.addr = b.index := by
    apply eq_of_toNat
    rw [haddr, addrEntry_entryAddr, Nat.mod_eq_of_lt (by omega)]
  rw [hentry, hbsize] at hk
  obtain ⟨hsize, hwords⟩ := bitmapMap_words b.index (b.index + 0x1000 / 0x1000) 0 heap.bitmap
  have hge := h.size_ge
  have hone : ∀ j, MapRange heap.bitmap.size b.index (b.index + 0x1000 / 0x1000) j ↔ j = b.index :=
    mapRange_one (lt_of_lt_of_le hlt (by omega))
  simp only [hone] at hwords
  refine ⟨_, h.ready.mark hk, h.stop_eq, ?_, ?_, ?_, ?_, ?_⟩
  · show 2 * heapPages heap ≤ (bitmapMap b.index (b.index + 0x1000 / 0x1000) 0 heap.bitmap).size.toNat
    rw [hsize]
    exact hge
  · exact fun x hx => h.block x (List.mem_of_mem_erase hx)
  · exact h.distinct.sublist ((List.erase_sublist).map Block.index)
  · intro j hj
    show (bitmapMap b.index (b.index + 0x1000 / 0x1000) 0 heap.bitmap).words j ≠ 0 ↔ _
    rw [hwords j, mem_map_erase h.distinct hb]
    by_cases hji : j = b.index
    · simp [hji]
    · rw [if_neg hji, h.used j hj]
      simp [hji]
  · intro j hj hjs
    show (bitmapMap b.index (b.index + 0x1000 / 0x1000) 0 heap.bitmap).words j = 0
    change j < (bitmapMap b.index (b.index + 0x1000 / 0x1000) 0 heap.bitmap).size at hjs
    rw [hsize] at hjs
    rw [hwords j]
    split
    · rfl
    · exact h.free j hj hjs

theorem heapAlloc_none {r r' : HeapRun} {heap : Heap} {size : UInt32}
    (h : HeapReady r.machine heap) (hsize : PageAligned size)
    (hno : ¬ EntryOk heap (foundEntry size r.machine)) (hs : heapStep r (.alloc size) = some r') :
    r' = r := by
  have heq := (heapAlloc_spec h size hsize).2.1 hno
  rw [heapStep, heq, Option.map_some] at hs
  exact (Option.some.inj hs).symm

theorem pageStep_inv {r r' : HeapRun} {op : HeapOp} (h : PagesInv r) (hc : OnePageOrNoRoom r op)
    (hs : pageStep r op = some r') : PagesInv r' := by
  obtain ⟨heap, h⟩ := h
  cases op with
  | alloc size =>
    rw [pageStep] at hs
    split at hs
    · rename_i hg
      obtain ⟨hfind, -, hsome⟩ := heapAlloc_spec h.ready size hg.2
      by_cases hok : EntryOk heap (foundEntry size r.machine)
      · rcases hc with rfl | hno
        · rw [show max ((0x1000 : UInt32) / 0x1000).toNat 1 = 1 from rfl] at hfind
          obtain ⟨hlt, h0⟩ := h.find_one hfind hok
          obtain ⟨m', hm', hmaps⟩ := hsome hok
          rw [heapStep, hm', Option.map_some] at hs
          obtain rfl := Option.some.inj hs
          rw [if_neg hok.1]
          exact h.alloc hlt h0 hmaps.toKeeps
        · exact absurd ⟨_, hfind, hok⟩ (hno heap h.ready.heap_eq)
      · rw [heapAlloc_none h.ready hg.2 hok hs]
        exact ⟨heap, h⟩
    · cases hs
  | free b =>
    rw [pageStep, heapStep] at hs
    split at hs
    · rename_i hb
      obtain ⟨hsize, haddr, -⟩ := h.block b hb
      have ha : PageAligned b.addr := by
        rw [haddr]
        exact entryAddr_aligned h.ready _
      have hz : PageAligned b.size := by
        rw [hsize]
        decide
      obtain ⟨m', hm', hk⟩ := heapFree_spec h.ready ha hz
      rw [hm', Option.map_some] at hs
      obtain rfl := Option.some.inj hs
      exact h.free_block hb hk
    · cases hs

/-- The entry before a free run that comes first is used. -/
theorem words_before_run {b : Bitmap} {i : UInt32} {n : ℕ} (hi : 0 < i.toNat) (hrun : RunAt b 0 i n)
    (hfirst : ∀ j < i, ¬ RunAt b 0 j n) : b.words (i - 1) ≠ 0 := by
  have hi1 : (i - 1).toNat = i.toNat - 1 := toNat_sub_of_le (by
    simp only [UInt32.reduceToNat]
    omega)
  intro hfree
  refine hfirst (i - 1) (by rw [UInt32.lt_iff_toNat_lt, hi1]; omega) fun x hx => ?_
  cases x with
  | zero => rwa [show i - 1 + UInt32.ofNat 0 = i - 1 from UInt32.add_zero _]
  | succ x =>
    rw [show i - 1 + UInt32.ofNat (x + 1) = i + UInt32.ofNat x by
      rw [UInt32.ofNat_add]; grind]
    exact hrun x (by omega)

/-- The entries behind the last page are free, so a run that comes first starts there at the latest. -/
theorem PagesLive.first_le {r : HeapRun} {heap : Heap} (h : PagesLive r heap) {i : UInt32} {n : ℕ}
    (hn : heapPages heap + n ≤ heap.bitmap.size.toNat)
    (hfirst : ∀ j < i, ¬ RunAt heap.bitmap 0 j n) : i.toNat ≤ heapPages heap := by
  have hpages : heapPages heap < 2 ^ 20 := heapPages_le
  have hsize := heap.bitmap.size.toNat_lt
  have hS : (UInt32.ofNat (heapPages heap)).toNat = heapPages heap := toNat_ofNat_of_lt (by omega)
  by_contra hlt
  refine hfirst (UInt32.ofNat (heapPages heap)) (by rw [UInt32.lt_iff_toNat_lt, hS]; omega)
    fun x hx => ?_
  have hx' : (UInt32.ofNat (heapPages heap) + UInt32.ofNat x).toNat = heapPages heap + x := by
    rw [← UInt32.ofNat_add]
    exact toNat_ofNat_of_lt (by omega)
  refine h.free _ (by rw [hx']; omega) ?_
  rw [UInt32.lt_iff_toNat_lt, hx']
  omega

/-- **A longer block does not fit in.**  If it stays below the top of the heap, the entry before its
own is a live page's, and that page comes right behind the block's first. -/
theorem PagesLive.alloc_long {r : HeapRun} {heap : Heap} (h : PagesLive r heap) {i size : UInt32}
    {m' : Machine} {start stop value : UInt32} (hsize : PageAligned size) (h0 : size ≠ 0)
    (hne : size ≠ 0x1000) (hfind : FindResult heap.bitmap 0 (max (size / 0x1000).toNat 1) i)
    (hok : EntryOk heap i) (hk : Keeps (markHeap start stop value heap r.machine) m') :
    ¬ RangesOk ⟨m', ⟨entryAddr heap i, size, i⟩ :: r.live⟩ := by
  intro hranges
  have hs := h.ready.start_aligned
  have hpages : heapPages heap < 2 ^ 20 := heapPages_le
  have hge := h.size_ge
  have hlt := (entryOk_iff hs i).1 hok
  have haddr := entryOk_addr hs hok
  have hpos := toNat_pos h0
  have hne' := toNat_ne hne
  rw [pageAligned_iff] at hsize
  have hn : max (size / 0x1000).toNat 1 = size.toNat / 0x1000 := by
    have hdiv : (size / 0x1000).toNat = size.toNat / 0x1000 := UInt32.toNat_div _ _
    rw [hdiv]
    omega
  rw [hn] at hfind
  have hn2 : 2 ≤ size.toNat / 0x1000 := by
    simp only [UInt32.reduceToNat] at hne'
    omega
  -- the block ends below the top of the heap
  have hin : (entryAddr heap i).toNat + size.toNat ≤ heap.start.toNat + 0x1000 := by
    obtain ⟨heap', heq, hall⟩ := hranges.inside
    have hb := (hall _ List.mem_cons_self).2
    have hheap := hk.kernelHeap_eq.symm.trans heq
    obtain rfl := Option.some.inj hheap
    exact hb
  cases hfind with
  | notFound _ =>
    rw [show (-1 : UInt32).toNat = 2 ^ 32 - 1 from rfl] at hlt
    omega
  | found _ _ hrun hfirst =>
    have hsmall : i.toNat ≤ heapPages heap := h.first_le (by omega) hfirst
    rw [Nat.mod_eq_of_lt (by omega)] at hlt haddr
    have hi1 : (i - 1).toNat = i.toNat - 1 := toNat_sub_of_le (by
      simp only [UInt32.reduceToNat]
      omega)
    have hprev := words_before_run (by omega) hrun hfirst
    obtain ⟨b, hb, hbi⟩ := List.mem_map.1 ((h.used (i - 1) (by rw [hi1]; omega)).1 hprev)
    have hbaddr := (h.addr_eq hb).1
    have hbsize := (h.block b hb).1
    have hdis := (List.pairwise_cons.1 hranges.disjoint).1 b hb
    rw [hbi, hi1] at hbaddr
    rw [hbsize] at hdis
    simp only [UInt32.reduceToNat] at hdis
    omega

theorem pageStep_not_ok {r r' : HeapRun} {op : HeapOp} (h : PagesInv r)
    (hc : ¬ OnePageOrNoRoom r op) (hs : pageStep r op = some r') : ¬ RangesOk r' := by
  obtain ⟨heap, h⟩ := h
  cases op with
  | free b => exact absurd trivial hc
  | alloc size =>
    rw [pageStep] at hs
    split at hs
    · rename_i hg
      rw [OnePageOrNoRoom, not_or] at hc
      obtain ⟨hne, hroom⟩ := hc
      push Not at hroom
      obtain ⟨heap', heq, i, hi, hok⟩ := hroom
      obtain rfl : heap = heap' := Option.some.inj (h.ready.heap_eq.symm.trans heq)
      obtain ⟨hfind, -, hsome⟩ := heapAlloc_spec h.ready size hg.2
      obtain rfl : i = foundEntry size r.machine := hi.unique hfind
      obtain ⟨m', hm', hmaps⟩ := hsome hok
      rw [heapStep, hm', Option.map_some] at hs
      obtain rfl := Option.some.inj hs
      rw [if_neg hok.1]
      exact h.alloc_long hg.2 hg.1 hne hfind hok hmaps.toKeeps
    · cases hs

end CometOS
