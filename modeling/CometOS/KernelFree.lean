import CometOS.KernelRun

/-!
# What `heap_free` takes away in the kernel's memory

`heap_free` clears the entries that `heap_alloc` set.  But its loop goes down from the block's first page,
to page zero; and the words of the heap's bitmap are also words of the frame bitmap, which is a thirty-second
as long as it should be, so that a cleared entry is a cleared frame.  Nothing but a block of no page is given
back alone.
-/

namespace CometOS

open ByteMemory Loop Paged Run Word32

/-! ### What the call should do -/

/-- The page at `v` is one of the block's. -/
def InBlock (b : Block) (v : UInt32) : Prop :=
  b.addr.toNat ≤ v.toNat ∧ v.toNat < b.addr.toNat + b.size.toNat

/-- Frame `i` is behind one of the block's pages. -/
def Backs (c : Computer) (b : Block) (i : UInt32) : Prop :=
  ∃ v f, PageAligned v ∧ InBlock b v ∧ c.translate v = some f ∧ f / 0x1000 = i

/-- Entry `i` is one of those that `heap_alloc` set for the block. -/
def Block.Has (b : Block) (i : UInt32) : Prop :=
  b.index.toNat ≤ i.toNat ∧ i.toNat < b.index.toNat + b.size.toNat / 0x1000

/-- From `c` to `c'` the block's pages, frames and entries are given back, and nothing else.  The frame
bitmap has `frames` entries, the heap's `entries`. -/
structure Undoes (frames entries : ℕ) (c c' : Computer) (b : Block) : Prop where
  lost : ∀ v, PageAligned v → InBlock b v → c'.translate v = none
  kept : ∀ v, PageAligned v → ¬ InBlock b v → c'.translate v = c.translate v
  freed : ∀ i, Backs c b i → c'.frameEntry i = some 0
  frames_kept : ∀ i : UInt32, i.toNat < frames → ¬ Backs c b i → c'.frameEntry i = c.frameEntry i
  cleared : ∀ i, b.Has i → c'.heapWord i = some 0
  entries_kept : ∀ i : UInt32, i.toNat < entries → ¬ b.Has i → c'.heapWord i = c.heapWord i

/-! ### The entries of live allocations -/

/-- The entries of the live allocations are set, and no two have one in common. -/
structure EntriesLive (heap : Heap) (live : List Block) : Prop where
  used : ∀ b ∈ live, ∀ i, b.Has i → heap.bitmap.words i ≠ 0
  disjoint : live.Pairwise fun a b => ∀ i, a.Has i → ¬ b.Has i

section

variable {L : KernelLayout} {r r' : KernelRun} {m : Machine} {heap : Heap} {op : HeapOp} {index size : UInt32}

/-- The entries that are set for a block that is found. -/
theorem mapRange_has {heap : Heap} (hsize : heap.bitmap.size.toNat = L.entries.count)
    (hin : index.toNat + max (size.toNat / 0x1000) 1 ≤ L.entries.count) (addr i : UInt32) :
    MapRange heap.bitmap.size index (index + size / 0x1000) i ↔ Block.Has ⟨addr, size, index⟩ i := by
  have hcount := L.count_lt.2
  have hdiv := pages_toNat size
  have hstop : (index + size / 0x1000).toNat = index.toNat + size.toNat / 0x1000 := by
    rw [toNat_add_of_lt (by omega), hdiv]
  rw [MapRange, UInt32.le_iff_toNat_le, UInt32.le_iff_toNat_le, UInt32.lt_iff_toNat_lt, hstop]
  show _ ↔ index.toNat ≤ i.toNat ∧ i.toNat < index.toNat + size.toNat / 0x1000
  omega

/-- A run that is found has no entry in common with the live allocations. -/
theorem EntriesLive.alloc (h : EntriesLive heap r.live)
    (hsize : heap.bitmap.size.toNat = L.entries.count)
    (hin : index.toNat + max (size.toNat / 0x1000) 1 ≤ L.entries.count)
    (hfind : FindResult heap.bitmap 0 (max (size / 0x1000).toNat 1) index) (addr : UInt32) :
    EntriesLive { heap with bitmap := bitmapMap index (index + size / 0x1000) 1 heap.bitmap }
      (⟨addr, size, index⟩ :: r.live) := by
  have hcount := L.count_lt.2
  have hwords := (bitmapMap_words index (index + size / 0x1000) 1 heap.bitmap).2
  have hrange := mapRange_has (L := L) hsize hin addr
  -- the run that is found is free
  have hzero : ∀ i, Block.Has ⟨addr, size, index⟩ i → heap.bitmap.words i = 0 := by
    intro i hi
    change index.toNat ≤ i.toNat ∧ i.toNat < index.toNat + size.toNat / 0x1000 at hi
    have hsum : index + UInt32.ofNat (i.toNat - index.toNat) = i := by
      apply eq_of_toNat
      have hn : (UInt32.ofNat (i.toNat - index.toNat)).toNat = i.toNat - index.toNat :=
        toNat_ofNat_of_lt (by omega)
      rw [toNat_add_of_lt (by omega), hn]
      omega
    cases hfind with
    | found _ _ hrun _ =>
      have h0 := hrun (i.toNat - index.toNat) (by rw [pages_toNat]; omega)
      rwa [hsum] at h0
    | notFound _ =>
      rw [show (-1 : UInt32).toNat = 2 ^ 32 - 1 from rfl] at hin
      omega
  refine ⟨fun b hb i hi => ?_, List.pairwise_cons.2 ⟨fun b hb i hi hbi => h.used b hb i hbi (hzero i hi),
    h.disjoint⟩⟩
  show (bitmapMap index (index + size / 0x1000) 1 heap.bitmap).words i ≠ 0
  rw [hwords i]
  split
  · decide
  · rename_i hno
    rcases List.mem_cons.1 hb with rfl | hb
    · exact absurd ((hrange i).2 hi) hno
    · exact h.used b hb i hi

/-- A block that is freed takes its own entries with it. -/
theorem EntriesLive.free (h : EntriesLive heap r.live) {b : Block} (hb : b ∈ r.live)
    (hsize : heap.bitmap.size.toNat = L.entries.count)
    (hin : b.index.toNat + max (b.size.toNat / 0x1000) 1 ≤ L.entries.count) :
    EntriesLive { heap with bitmap := bitmapMap b.index (b.index + b.size / 0x1000) 0 heap.bitmap }
      (r.live.erase b) := by
  have hperm := (List.perm_cons_erase hb).pairwise_iff (R := fun a b : Block => ∀ i, a.Has i → ¬ b.Has i)
    (fun {a b} hab i hbi hai => hab i hai hbi)
  obtain ⟨hapart, hrest⟩ := List.pairwise_cons.1 (hperm.1 h.disjoint)
  refine ⟨fun x hx i hi => ?_, hrest⟩
  show (bitmapMap b.index (b.index + b.size / 0x1000) 0 heap.bitmap).words i ≠ 0
  rw [(bitmapMap_words b.index (b.index + b.size / 0x1000) 0 heap.bitmap).2 i]
  split
  · rename_i hrange
    exact absurd hi (hapart x hx i ((mapRange_has (L := L) hsize hin b.addr i).1 hrange))
  · exact h.used x (List.mem_of_mem_erase hx) i hi

end

/-- The kernel's memory, with the entries of the live allocations. -/
def KernelEntries (L : KernelLayout) (r : KernelRun) : Prop :=
  ∃ m heap, KernelLive L r m heap ∧ EntriesLive heap r.live

theorem KernelEntries.step {L : KernelLayout} {r r' : KernelRun} {op : HeapOp} (h : KernelEntries L r)
    (hc : Clear L r op) (hs : kernelStep r op = some r') : KernelEntries L r' := by
  obtain ⟨m, heap, hlive, hentries⟩ := h
  have hcount := hlive.kernel.heapAt.bitmap.count_eq
  cases op with
  | alloc size =>
    by_cases hsize : PageAligned size
    · obtain ⟨index, start, hclear⟩ := hc hsize
      obtain ⟨hnone, hsome⟩ := hlive.step_alloc hsize hclear
      by_cases hok : EntryOk heap index
      · obtain ⟨c', m', hc', -, hlive', -⟩ := hsome hok
        obtain rfl := Option.some.inj (hs.symm.trans hc')
        have hfind := bitmapEntrieFind_spec (hlive.kernel.heapReady.find size)
        rw [(hlive.kernel.alloc hsize hclear).1] at hfind
        exact ⟨m', _, hlive', hentries.alloc hcount hclear.inside hfind _⟩
      · obtain rfl := Option.some.inj (hs.symm.trans (hnone hok).1)
        exact ⟨m, heap, hlive, hentries⟩
    · obtain rfl := Option.some.inj (hs.symm.trans (hlive.step_unaligned hsize).1)
      exact ⟨m, heap, hlive, hentries⟩
  | free b =>
    have hb : b ∈ r.live := by
      by_contra hb
      rw [kernelStep, if_neg hb] at hs
      cases hs
    obtain ⟨c', m', hc', -, -, hlive'⟩ := hlive.step_free hb (hc hb)
    obtain rfl := Option.some.inj (hs.symm.trans hc')
    exact ⟨m', _, hlive', hentries.free hb hcount (hlive.placed b hb).inside⟩

/-! ### The frame bitmap goes on in the heap's -/

/-- The heap's words come after `d` words of the frame bitmap, and no frame that is mapped is as far up. -/
structure Overlap (L : KernelLayout) (d : ℕ) : Prop where
  addr : L.entries.entries.toNat = L.frames.entries.toNat + 4 * d
  behind : L.frames.count + 1024 ≤ d

/-- Booting lays the bitmaps out so, and the words are as many as the frame bitmap is meant to have. -/
theorem bootLayout_overlap {memUpper kernelPointer : UInt32} (h : BootApart memUpper kernelPointer) :
    ∃ d, Overlap (bootLayout memUpper kernelPointer h) d ∧
      d + memUpper.toNat / 512 ≤ memUpper.toNat / 4 := by
  obtain ⟨hfe, hee⟩ := bootLayout_entries h
  obtain ⟨hk, hb0, hentries, hheap, hheapBitmap, hb1, hheapEntries, hkernel⟩ :=
    bootPlan_rising memUpper.toNat kernelPointer.toNat
  have hnext := bootPlan_heapBitmap memUpper.toNat kernelPointer.toNat
  have hloaded := h.loaded
  have hframes := h.frames
  have hpages := h.plan.1
  unfold nextPage at hnext
  refine ⟨((bootPlan memUpper.toNat kernelPointer.toNat).heapEntries -
    (bootPlan memUpper.toNat kernelPointer.toNat).entries) / 4, ⟨?_, ?_⟩, ?_⟩
  · rw [hfe, hee]
    omega
  · show memUpper.toNat / 512 + 1024 ≤ _
    omega
  · omega

section

variable {L : KernelLayout} {c c' : Computer} {m m' : Machine} {heap heap' : Heap} {d : ℕ}

theorem KernelAt.heapWord (h : KernelAt L c m heap) {i : UInt32} (hi : i.toNat < L.entries.count) :
    c.heapWord i = some (heap.bitmap.words i) := by
  rw [Computer.heapWord, h.load_heap.2.2, Option.bind_some]
  exact h.heapAt.bitmap.check h.entries_seen hi

/-- **A word of the heap's bitmap is one of the frame bitmap.** -/
theorem KernelAt.frameEntry (h : KernelAt L c m heap) (hd : Overlap L d) {i : UInt32}
    (hi : i.toNat < L.entries.count) :
    c.frameEntry (UInt32.ofNat (d + i.toNat)) = some (heap.bitmap.words i) := by
  have hL := L.order
  have haddr := hd.addr
  have hdi : (UInt32.ofNat (d + i.toNat)).toNat = d + i.toNat := toNat_ofNat_of_lt (by omega)
  have h4 : (4 * UInt32.ofNat (d + i.toNat)).toNat = 4 * (d + i.toNat) := by
    rw [toNat_mul_of_lt] <;> rw [hdi] <;> simp only [UInt32.reduceToNat]
    omega
  have hword : L.frames.entries + 4 * UInt32.ofNat (d + i.toNat) = L.entries.entries + 4 * i := by
    apply eq_of_toNat
    rw [BitmapPlace.entry_toNat hi, toNat_add_of_lt] <;> rw [h4] <;> omega
  rw [Computer.frameEntry, h.frameBitmap_eq, Computer.bitmapEntrieCheck, h.frames.load_entries h.frames_seen,
    Option.bind_some, hword, ← h.heapAt.bitmap.check h.entries_seen hi, Computer.bitmapEntrieCheck,
    h.heapAt.bitmap.load_entries h.entries_seen, Option.bind_some]

/-- No page is mapped to a frame as far up. -/
theorem KernelAt.not_backs (h : KernelAt L c m heap) (hd : Overlap L d) (b : Block) {i : UInt32}
    (hi : i.toNat < L.entries.count) : ¬ Backs c b (UInt32.ofNat (d + i.toNat)) := by
  rintro ⟨v, f, hv, -, htrans, hf⟩
  have hL := L.order
  have haddr := hd.addr
  have hbehind := hd.behind
  have hvlt := v.toNat_lt
  rw [h.translate, ← pageAddr_of_aligned hv] at htrans
  rcases Nat.lt_or_ge (v.toNat / 0x1000) 1024 with hlt | hge
  · rw [h.tables.translate hlt] at htrans
    split at htrans
    · rename_i hp
      obtain ⟨g, hg, hglt, -⟩ := h.tables.mapped _ hlt hp
      obtain rfl := Option.some.inj htrans
      have hnum := congrArg UInt32.toNat hf
      rw [hg, pageAddr_div (by omega), toNat_ofNat_of_lt (by omega)] at hnum
      omega
    · cases htrans
  · rw [h.tables.translate_far hge (by omega)] at htrans
    cases htrans

/-- **A block with a page is not given back alone**: its first entry is a frame's, too. -/
theorem KernelAt.not_undoes {frames entries : ℕ} {b : Block} (h : KernelAt L c m heap)
    (h' : KernelAt L c' m' heap') (hd : Overlap L d) (hframes : d + L.entries.count ≤ frames)
    (hin : b.index.toNat + max (b.size.toNat / 0x1000) 1 ≤ L.entries.count)
    (hused : heap.bitmap.words b.index ≠ 0) (hcleared : heap'.bitmap.words b.index = 0) :
    ¬ Undoes frames entries c c' b := by
  intro hundo
  have hL := L.order
  have haddr := hd.addr
  have hi : b.index.toNat < L.entries.count := by omega
  have hkept := hundo.frames_kept (UInt32.ofNat (d + b.index.toNat))
    (by rw [toNat_ofNat_of_lt (by omega)]; omega) (h.not_backs hd b hi)
  rw [h.frameEntry hd hi, h'.frameEntry hd hi, hcleared] at hkept
  exact hused (Option.some.inj hkept).symm

end

/-- **The loop of `heap_free` goes down**: no page from the block's first on down is mapped behind it. -/
theorem KernelAt.swept {L : KernelLayout} {c c' : Computer} {m m' : Machine} {heap heap' : Heap}
    {addr size : UInt32} (h : KernelAt L c m heap) (h' : KernelAt L c' m' heap')
    (haddr : PageAligned addr) (hsize : PageAligned size)
    (hrun : CometOS.heapFree addr size m = some (1, m')) (hlt : addr < addr + size) {v : UInt32}
    (hv : PageAligned v) (hle : v ≤ addr) : c'.translate v = none := by
  rw [heapFree_run h.heapReady hsize] at hrun
  obtain ⟨m₁, hm₁, heq⟩ := Option.map_eq_some_iff.1 hrun
  obtain ⟨-, rfl⟩ := Prod.mk.inj heq
  rw [h'.translate]
  refine heapUnmap_swept ?_ haddr (haddr.add hsize) hlt hm₁ v hv hle
  show PageAligned m.cr3
  rw [h.tables.cr3_eq]
  exact L.directory_aligned

/-! ### A block of no page -/

section

variable {L : KernelLayout} {c : Computer} {m : Machine} {heap : Heap}

/-- Nothing is done for it. -/
theorem KernelAt.heapFree_zero (h : KernelAt L c m heap) (addr : UInt32) :
    c.heapFree addr 0 c.kernelHeap = some (1, c) := by
  obtain ⟨hstart, -, hbitmap⟩ := h.load_heap
  have hlt : ¬ addr < addr + 0 := by
    rw [UInt32.add_zero]
    exact UInt32.lt_irrefl addr
  have hmap : ∀ i, c.bitmapMap i (i + 0 / 0x1000) 0 L.entries.addr = some c := by
    intro i
    rw [show i + 0 / 0x1000 = i from UInt32.add_zero i, Computer.bitmapMap, h.entries_seen.load_size,
      Option.bind_some, Nat.sub_self]
    split
    · rfl
    · rfl
  rw [Computer.heapFree, if_neg h.heap_ne_zero, if_neg (by decide), hstart, Option.bind_some, hbitmap,
    Option.bind_some]
  show ((c.bitmapMap (addrEntry heap addr) (addrEntry heap addr + 0 / 0x1000) 0 L.entries.addr).bind
    fun c => (c.heapUnmap addr (addr + 0)).map fun c => ((1 : UInt32), c)) = _
  rw [hmap, Option.bind_some, Computer.heapUnmap_done hlt, Option.map_some]

theorem undoes_zero {frames entries : ℕ} {b : Block} (hb : b.size = 0) : Undoes frames entries c c b := by
  have hin : ∀ v, ¬ InBlock b v := by
    rintro v ⟨hlo, hhi⟩
    rw [hb, UInt32.toNat_zero] at hhi
    omega
  have hhas : ∀ i, ¬ b.Has i := by
    rintro i ⟨hlo, hhi⟩
    rw [hb, UInt32.toNat_zero] at hhi
    omega
  exact ⟨fun v _ hv => absurd hv (hin v), fun _ _ _ => rfl, fun i ⟨v, _, _, hv, _⟩ => absurd hv (hin v),
    fun _ _ _ => rfl, fun i hi => absurd hi (hhas i), fun _ _ _ => rfl⟩

end

/-! ### Exactly -/

/-- In every state that keeps clear of the memory code's own structures. -/
theorem KernelEntries.undoes_iff {L : KernelLayout} {r : KernelRun} (h : KernelEntries L r) {d frames : ℕ}
    (entries : ℕ) (hd : Overlap L d) (hframes : d + L.entries.count ≤ frames) {b : Block} (hb : b ∈ r.live)
    (hlow : b.size = 0 ∨ b.addr.toNat < 0x100000) :
    ∃ c', r.computer.heapFree b.addr b.size r.computer.kernelHeap = some (1, c') ∧
      (Undoes frames entries r.computer c' b ↔ b.size = 0) := by
  obtain ⟨m, heap, hlive, hentries⟩ := h
  have hplaced := hlive.placed b hb
  have hin := hplaced.inside
  have hal := (pageAligned_iff _).1 hplaced.size_aligned
  by_cases h0 : b.size = 0
  · refine ⟨r.computer, ?_, fun _ => h0, fun _ => undoes_zero h0⟩
    rw [h0]
    exact hlive.kernel.heapFree_zero b.addr
  · obtain ⟨c', m', -, hc', -, hlive'⟩ := hlive.step_free hb hlow
    have hpos := toNat_pos h0
    have hhas : b.Has b.index := ⟨le_rfl, by omega⟩
    refine ⟨c', hc', fun hundo => absurd hundo ?_, fun hz => absurd hz h0⟩
    refine hlive.kernel.not_undoes hlive'.kernel hd hframes hin (hentries.used b hb _ hhas) ?_
    show (bitmapMap b.index (b.index + b.size / 0x1000) 0 heap.bitmap).words b.index = 0
    rw [(bitmapMap_words b.index (b.index + b.size / 0x1000) 0 heap.bitmap).2 b.index, if_pos]
    exact (mapRange_has (L := L) hlive.kernel.heapAt.bitmap.count_eq hin b.addr b.index).2 hhas

/-- **`heap_free`, exactly.**  With the boot structures apart, in every state that calls come to which keep
clear of them, `heap_free` of a live allocation returns, and it undoes the allocation and nothing else if
and only if that has no page. -/
theorem heap_free_undoes_iff (memLower memUpper : UInt32) (c : Computer) (hoff : c.pagingState = 0)
    (h : BootApart memUpper c.kernelPointer) :
    ∃ c', c.pagingInitialize memLower memUpper = some c' ∧ ∀ ops r,
      Permitted kernelStep (Clear (bootLayout memUpper c.kernelPointer h)) ⟨c', []⟩ ops →
      run kernelStep ⟨c', []⟩ ops = some r → ∀ b ∈ r.live, b.size = 0 ∨ b.addr.toNat < 0x100000 →
        ∃ c₁, r.computer.heapFree b.addr b.size r.computer.kernelHeap = some (1, c₁) ∧
          (Undoes (memUpper.toNat / 4) (memUpper.toNat / 4) r.computer c₁ b ↔ b.size = 0) := by
  obtain ⟨c', m, heap, hrun, hkernel, -, -⟩ := pagingInitialize_kernelAt memLower hoff h
  obtain ⟨d, hd, hframes⟩ := bootLayout_overlap h
  have hstart : KernelEntries (bootLayout memUpper c.kernelPointer h) ⟨c', []⟩ :=
    ⟨m, heap, hkernel.live, fun _ hb => absurd hb List.not_mem_nil, List.Pairwise.nil⟩
  refine ⟨c', hrun, fun ops r hc hr b hb hlow => ?_⟩
  have hreached := run_of_permitted (fun _ _ _ hs hC hstep => KernelEntries.step hs hC hstep) ops _ r hstart
    hc hr
  exact hreached.undoes_iff _ hd hframes hb hlow

/-- With 384 MiB and a kernel that ends at `0x110000`, of two live pages the first is freed. -/
theorem heap_free_undoes_first : ∃ c' r c₁, (bareComputer 0x110000).pagingInitialize 0 0x60000 = some c' ∧
    run kernelStep ⟨c', []⟩ [.alloc 0x1000, .alloc 0x1000] = some r ∧
    r.computer.heapFree 0x60000 0x1000 r.computer.kernelHeap = some (1, c₁) ∧
    (Undoes 0x18000 0x18000 r.computer c₁ ⟨0x60000, 0x1000, 0⟩ ↔ (0x1000 : UInt32) = 0) := by
  have hapart : BootApart 0x60000 (bareComputer 0x110000).kernelPointer := by decide
  obtain ⟨c', m, heap, hrun, hkernel, hbooted, -⟩ :=
    pagingInitialize_kernelAt (c := bareComputer 0x110000) 0 rfl hapart
  obtain ⟨c₀, hrun₀, hall⟩ := heap_free_undoes_iff 0 0x60000 (bareComputer 0x110000) rfl hapart
  obtain rfl := Option.some.inj (hrun.symm.trans hrun₀)
  have hclear : Permitted kernelStep (Clear (bootLayout 0x60000 0x110000 hapart)) ⟨c', []⟩
      [.alloc 0x1000, .alloc 0x1000] :=
    Permitted.imp (fun _ _ h => h.1) (hbooted.permitted_pages hkernel 0 [.alloc 0x1000, .alloc 0x1000]
      (by decide) (show 2 ≤ (0x60000 : UInt32).toNat / 512 by decide)
      (show 2 + (bootPageCount 0x60000 0x110000 + 2) ≤ (0x60000 : UInt32).toNat / 512 by decide)
      (Or.inl (by decide)) (by decide)).1
  obtain ⟨-, -, c₁, m₁, hc₁, hlive, -⟩ := hbooted.first_alloc hkernel (show PageAligned 0x1000 by decide)
    (by decide) (show 1 ≤ (0x60000 : UInt32).toNat / 512 by decide)
    (hbooted.blockClear hkernel (by decide) (Or.inl (by decide))
      (show 1 + (bootPageCount 0x60000 0x110000 + 2) ≤ (0x60000 : UInt32).toNat / 512 by decide))
  obtain ⟨r, hr, hkeep⟩ := hlive.request (hclear.2 _ hc₁).1
  have hrun₂ : run kernelStep ⟨c', []⟩ [.alloc 0x1000, .alloc 0x1000] = some r := by
    rw [run_cons, hc₁, Option.bind_some, run_cons, hr]
    rfl
  obtain ⟨c₂, hc₂, hiff⟩ := hall _ r hclear hrun₂ _ (hkeep _ List.mem_cons_self) (Or.inr (by decide))
  exact ⟨c', r, c₂, hrun, hrun₂, hc₂, hiff⟩

/-- There, freeing the first page takes page zero along. -/
theorem heap_free_fails_on_first : ∃ c' c₁ c₂, (bareComputer 0x110000).pagingInitialize 0 0x60000 = some c' ∧
    kernelStep ⟨c', []⟩ (.alloc 0x1000) = some ⟨c₁, [⟨0x60000, 0x1000, 0⟩]⟩ ∧
    c₁.heapFree 0x60000 0x1000 c₁.kernelHeap = some (1, c₂) ∧ c₁.translate 0 = some 0 ∧
    c₂.translate 0 = none ∧ ¬ Undoes 0x18000 0x18000 c₁ c₂ ⟨0x60000, 0x1000, 0⟩ := by
  have hapart : BootApart 0x60000 (bareComputer 0x110000).kernelPointer := by decide
  obtain ⟨c', m, heap, hrun, hkernel, hbooted, -⟩ :=
    pagingInitialize_kernelAt (c := bareComputer 0x110000) 0 rfl hapart
  obtain ⟨-, -, c₁, m₁, hc₁, hlive, hmapped⟩ := hbooted.first_alloc hkernel
    (show PageAligned 0x1000 by decide) (by decide) (show 1 ≤ (0x60000 : UInt32).toNat / 512 by decide)
    (hbooted.blockClear hkernel (by decide) (Or.inl (by decide))
      (show 1 + (bootPageCount 0x60000 0x110000 + 2) ≤ (0x60000 : UInt32).toNat / 512 by decide))
  obtain ⟨c₂, m₂, -, hc₂, hm₂, hlive₂⟩ := hlive.step_free List.mem_cons_self (Or.inr (by decide))
  have hbefore : c₁.translate 0 = some 0 := by
    have hword := hmapped.others 0 (by decide) (Or.inl (by decide))
    rw [hbooted.words 0 (by decide)] at hword
    have htrans := hlive.kernel.tables.translate (i := 0) (by decide)
    rw [hword, if_pos (present_or_three _), phyGet_three (pageAddr_aligned (by decide))] at htrans
    exact (hlive.kernel.translate 0).trans htrans
  have hcall : heapFree 0x60000 0x1000 m₁ = some (1, m₂) := hm₂
  have hafter : c₂.translate 0 = none :=
    hlive.kernel.swept hlive₂.kernel (by decide) (by decide) hcall (by decide) (by decide) (by decide)
  refine ⟨c', c₁, c₂, hrun, hc₁, hc₂, hbefore, hafter, fun hundo => ?_⟩
  have hkept := hundo.kept 0 (by decide) (by unfold InBlock; decide)
  rw [hbefore, hafter] at hkept
  cases hkept

end CometOS
