import CometOS.HeapRanges
import CometOS.KernelRun

/-!
# Where the live allocations lie in the kernel's memory

What `HeapRanges` proves of the machine, for the memory that `paging_initialize` leaves: as long as no call
gets in the way of the memory code's own structures, the live allocations are disjoint and inside the heap
exactly while every request is for one page or finds no room.  Runs of one-page requests are shown to stay
out of the way.
-/

namespace CometOS

open ByteMemory Run Word32

/-- The live allocations inside `[heap->end, heap->start + 0x1000)` and disjoint. -/
structure KernelRangesOk (r : KernelRun) : Prop where
  inside : ∃ start stop, r.computer.load32 r.computer.kernelHeap = some start ∧
    r.computer.load32 (r.computer.kernelHeap + 4) = some stop ∧ ∀ b ∈ r.live,
      stop.toNat ≤ b.addr.toNat ∧ b.addr.toNat + b.size.toNat ≤ start.toNat + 0x1000
  disjoint : r.live.Pairwise fun a b =>
    a.addr.toNat + a.size.toNat ≤ b.addr.toNat ∨ b.addr.toNat + b.size.toNat ≤ a.addr.toNat

/-- A request for one page or for one that there is no room for, and any `heap_free`. -/
def OnePageOrNone (r : KernelRun) : HeapOp → Prop
  | .alloc size => size = 0x1000 ∨ ∀ index start, r.computer.heapEntry size = some index →
      r.computer.load32 r.computer.kernelHeap = some start →
        start - index * 0x1000 = 0 ∨ start < start - index * 0x1000
  | .free _ => True

/-- Requests are for whole pages, at least one. -/
def WholePages : HeapOp → Prop
  | .alloc size => size ≠ 0 ∧ PageAligned size
  | .free _ => True

instance : DecidablePred WholePages
  | .alloc _ => inferInstanceAs (Decidable (_ ∧ _))
  | .free _ => inferInstanceAs (Decidable True)

/-! ### One step -/

section

variable {L : KernelLayout} {r r' : KernelRun} {m : Machine} {heap : Heap} {op : HeapOp}

theorem KernelLive.rangesOk_iff (h : KernelLive L r m heap) :
    KernelRangesOk r ↔ RangesOk ⟨m, r.live⟩ := by
  obtain ⟨hstart, hstop, -⟩ := h.kernel.load_heap
  constructor
  · rintro ⟨⟨start, stop, hs, he, hin⟩, hdis⟩
    obtain rfl := Option.some.inj (hstart.symm.trans hs)
    obtain rfl := Option.some.inj (hstop.symm.trans he)
    exact ⟨⟨heap, h.kernel.heap_eq, hin⟩, hdis⟩
  · rintro ⟨⟨heap', heq, hin⟩, hdis⟩
    obtain rfl := Option.some.inj (h.kernel.heap_eq.symm.trans heq)
    exact ⟨⟨heap.start, heap.stop, hstart, hstop, hin⟩, hdis⟩

/-- A request that finds no room in memory finds none on the machine. -/
theorem KernelLive.onePage_iff (h : KernelLive L r m heap) (hc : Clear L r op) (hw : WholePages op) :
    OnePageOrNone r op ↔ OnePageOrNoRoom ⟨m, r.live⟩ op := by
  cases op with
  | free b => exact Iff.rfl
  | alloc size =>
    obtain ⟨index, start, hclear⟩ := hc hw.2
    obtain ⟨hentry, hstart, -⟩ := h.kernel.alloc hw.2 hclear
    have hfind := bitmapEntrieFind_spec (h.kernel.heapReady.find size)
    rw [hentry] at hfind
    refine or_congr Iff.rfl ⟨fun hno heap' heq hroom => ?_, fun hno i s hi hs => ?_⟩
    · obtain rfl := Option.some.inj (h.kernel.heap_eq.symm.trans heq)
      obtain ⟨j, hj, hok⟩ := hroom
      obtain rfl := hj.unique hfind
      rcases hno j start hclear.found hclear.start_eq with h0 | hgt
      · rw [← hstart] at h0
        exact hok.1 h0
      · rw [← hstart] at hgt
        exact UInt32.not_le.2 hgt hok.2
    · obtain rfl := Option.some.inj (hclear.found.symm.trans hi)
      obtain rfl := Option.some.inj (hclear.start_eq.symm.trans hs)
      by_contra hok
      rw [not_or, UInt32.not_lt, ← hstart] at hok
      exact hno heap h.kernel.heap_eq ⟨index, hfind, hok⟩

/-- Requests for whole pages are what `pageStep` allows. -/
theorem pageStep_eq {r : HeapRun} (hw : WholePages op) : pageStep r op = heapStep r op := by
  cases op with
  | alloc size => exact if_pos hw
  | free b => rfl

end

/-- The kernel's memory with entries and pages in step. -/
def KernelPages (L : KernelLayout) (r : KernelRun) : Prop :=
  ∃ m heap, KernelLive L r m heap ∧ PagesInv ⟨m, r.live⟩

/-- **All along a run** of clear calls. -/
theorem KernelPages.run {L : KernelLayout} {r : KernelRun} (h : KernelPages L r) {ops : List HeapOp}
    (hw : ∀ op ∈ ops, WholePages op) (hc : Permitted kernelStep (Clear L) r ops) :
    AllStates kernelStep KernelRangesOk r ops ↔ AllSteps kernelStep OnePageOrNone r ops := by
  refine allStates_iff_of_permitted (I := KernelPages L)
    (E := fun r op => Clear L r op ∧ WholePages op) ?_ ?_ ?_ ops r h (hc.and hw)
  · rintro r ⟨m, heap, hlive, _, hpages⟩
    exact hlive.rangesOk_iff.2 hpages.rangesOk
  · rintro r op r' ⟨m, heap, hlive, hpages⟩ ⟨hclear, hop⟩ hone hs
    obtain ⟨m', heap', hm', hlive', -⟩ := hlive.step hclear hs
    exact ⟨m', heap', hlive', pageStep_inv hpages ((hlive.onePage_iff hclear hop).1 hone)
      ((pageStep_eq hop).trans hm')⟩
  · rintro r op r' ⟨m, heap, hlive, hpages⟩ ⟨hclear, hop⟩ hone hs hok
    obtain ⟨m', heap', hm', hlive', -⟩ := hlive.step hclear hs
    exact pageStep_not_ok hpages (fun hc => hone ((hlive.onePage_iff hclear hop).2 hc))
      ((pageStep_eq hop).trans hm') (hlive'.rangesOk_iff.1 hok)

/-! ### After booting -/

section

variable {L : KernelLayout} {c : Computer} {m : Machine} {heap : Heap} {memUpper : UInt32}

/-- The heap's pages are one for each 4 KiB below `mem_upper`, of which there are as many as KiB of
memory. -/
theorem Booted.heapPages_eq (hb : Booted L memUpper m heap) : heapPages heap = memUpper.toNat / 0x1000 := by
  rw [heapPages, hb.start_eq, toNat_and_page]
  omega

theorem Booted.pages (hb : Booted L memUpper m heap) (h : KernelAt L c m heap)
    (hcount : L.entries.count = memUpper.toNat / 512) : KernelPages L ⟨c, []⟩ := by
  have hpages := hb.heapPages_eq
  have hsize := h.heapAt.bitmap.count_eq
  refine ⟨m, heap, h.live, heap, h.heapReady, hb.stop_eq, by omega,
    fun b hmem => absurd hmem (List.not_mem_nil), List.nodup_nil, fun i hi => ?_, fun i _ hi => ?_⟩
  · exact iff_of_false (not_not.2 (hb.entries i (by omega))) (List.not_mem_nil)
  · rw [UInt32.lt_iff_toNat_lt] at hi
    exact hb.entries i (by omega)

end

/-- **`heap_alloc` and `heap_free`, exactly.**  With the boot structures apart, over every run of calls for
whole pages that keep clear of them, the live allocations are inside the heap and disjoint if and only if
every request is for one page or finds no room. -/
theorem heap_ranges_iff (memLower memUpper : UInt32) (c : Computer) (hoff : c.pagingState = 0)
    (h : BootApart memUpper c.kernelPointer) :
    ∃ c', c.pagingInitialize memLower memUpper = some c' ∧ ∀ ops, (∀ op ∈ ops, WholePages op) →
      Permitted kernelStep (Clear (bootLayout memUpper c.kernelPointer h)) ⟨c', []⟩ ops →
        (AllStates kernelStep KernelRangesOk ⟨c', []⟩ ops ↔
          AllSteps kernelStep OnePageOrNone ⟨c', []⟩ ops) := by
  obtain ⟨c', m, heap, hrun, hkernel, hbooted, -⟩ := pagingInitialize_kernelAt memLower hoff h
  exact ⟨c', hrun, fun ops hw hc => (hbooted.pages hkernel rfl).run hw hc⟩

/-- With 384 MiB and a kernel that ends at `0x110000`, four calls for one page. -/
theorem heap_ranges_pages : ∃ c', (bareComputer 0x110000).pagingInitialize 0 0x60000 = some c' ∧
    AllStates kernelStep KernelRangesOk ⟨c', []⟩
      [.alloc 0x1000, .alloc 0x1000, .free ⟨0x60000, 0x1000, 0⟩, .alloc 0x1000] := by
  have hapart : BootApart 0x60000 (bareComputer 0x110000).kernelPointer := by decide
  obtain ⟨c', m, heap, hrun, hkernel, hbooted, -⟩ :=
    pagingInitialize_kernelAt (c := bareComputer 0x110000) 0 rfl hapart
  obtain ⟨c₁, hrun₁, hiff⟩ := heap_ranges_iff 0 0x60000 (bareComputer 0x110000) rfl hapart
  obtain rfl := Option.some.inj (hrun.symm.trans hrun₁)
  refine ⟨c', hrun, (hiff _ ?_ ?_).2 (AllSteps.of_forall _ ?_)⟩
  · decide
  · refine Permitted.imp (fun _ _ h => h.1) (hbooted.permitted_pages hkernel 0
      [.alloc 0x1000, .alloc 0x1000, .free ⟨0x60000, 0x1000, 0⟩, .alloc 0x1000] (by decide)
      (show 4 ≤ (0x60000 : UInt32).toNat / 512 by decide)
      (show 4 + (bootPageCount 0x60000 0x110000 + 2) ≤ (0x60000 : UInt32).toNat / 512 by decide)
      (Or.inl (by decide)) (by decide)).1
  · simp only [List.forall_mem_cons]
    exact ⟨fun _ => Or.inl rfl, fun _ => Or.inl rfl, fun _ => trivial, fun _ => Or.inl rfl,
      fun _ h => absurd h List.not_mem_nil⟩

/-- There, two pages asked for first reach past the heap's top. -/
theorem heap_ranges_fail_on_two : ∃ c' r, (bareComputer 0x110000).pagingInitialize 0 0x60000 = some c' ∧
    kernelStep ⟨c', []⟩ (.alloc 0x2000) = some r ∧ ¬ KernelRangesOk r := by
  have hapart : BootApart 0x60000 (bareComputer 0x110000).kernelPointer := by decide
  obtain ⟨c', m, heap, hrun, hkernel, hbooted, -⟩ :=
    pagingInitialize_kernelAt (c := bareComputer 0x110000) 0 rfl hapart
  obtain ⟨-, -, c₁, m₁, hc₁, hlive, -⟩ := hbooted.first_alloc hkernel (show PageAligned 0x2000 by decide)
    (by decide) (show 2 ≤ (0x60000 : UInt32).toNat / 512 by decide)
    (hbooted.blockClear hkernel (by decide) (Or.inl (by decide))
      (show 2 + (bootPageCount 0x60000 0x110000 + 2) ≤ (0x60000 : UInt32).toNat / 512 by decide))
  refine ⟨c', _, hrun, hc₁, fun hok => ?_⟩
  obtain ⟨start, stop, hs, -, hin⟩ := hok.inside
  obtain rfl := Option.some.inj (hlive.kernel.load_heap.1.symm.trans hs)
  have hle := (hin _ List.mem_cons_self).2
  change _ ≤ heap.start.toNat + 0x1000 at hle
  rw [hbooted.start_eq] at hle
  exact absurd hle (by decide)

end CometOS
