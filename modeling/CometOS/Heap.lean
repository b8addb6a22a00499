import CometOS.Lib.Run
import CometOS.Paging

/-!
# The kernel heap (`kernel/arch/i386/mem/heap.c`)

`heap_alloc` and `heap_free`, what each does to the heap, and runs of the two.  A run keeps the list
of live allocations, each with the bitmap entry its search came out at.
-/

namespace CometOS

open ByteMemory Loop Run Word32

/-! ### Allocating -/

/-- What both loops do to a page they unmap: its frame is freed, it is unmapped, and they go down a
page. -/
def unmapTurn (x : UInt32 × Machine) : UInt32 × Machine :=
  (x.1 - 0x1000, pageUnmap x.1 0 (frameFree (pagePhysaddr x.1 0 x.2) x.2))

/-- The way back out of a failed `heap_alloc`. -/
def heapUndo (addr i : UInt32) (m : Machine) : Option Machine :=
  (whileLoop (fun x => decide (x.1 > addr)) (fun x => some (unmapTurn x)) (2 ^ 32)
    (i - 0x1000, m)).map Prod.snd

/-- The mapping loop of `heap_alloc`, from `i` on. -/
def heapMapFrom (addr stop : UInt32) : ℕ → UInt32 → Machine → Option (UInt32 × Machine)
  | 0, _, _ => none
  | fuel + 1, i, m =>
    if i < stop then
      (frameAlloc m).bind fun frame =>
        (pageMap frame.1 i 3 0 frame.2).bind fun page =>
          if page.1 = 0 then (heapUndo addr i page.2).map fun m => (0, m)
          else heapMapFrom addr stop fuel (i + 0x1000) page.2
    else some (addr, m)

/-- `bitmap_map(start, stop, value, heap->bitmap)`. -/
def markHeap (start stop value : UInt32) (heap : Heap) (m : Machine) : Machine :=
  { m with kernelHeap := some { heap with bitmap := bitmapMap start stop value heap.bitmap } }

/-- The page of a bitmap entry: entries count up and pages down. -/
def entryAddr (heap : Heap) (index : UInt32) : UInt32 := heap.start - index * 0x1000

def heapAlloc (size : UInt32) (m : Machine) : Option (UInt32 × Machine) :=
  match m.kernelHeap with
  | none => some (0, m)
  | some heap =>
    if size &&& 0xFFF ≠ 0 then some (0, m)
    else
      (bitmapEntrieFind (size / 0x1000) 0 heap.bitmap).bind fun index =>
        if entryAddr heap index = 0 ∨ entryAddr heap index > heap.start then some (0, m)
        else
          heapMapFrom (entryAddr heap index) (entryAddr heap index + size) (2 ^ 32)
            (entryAddr heap index) (markHeap index (index + size / 0x1000) 1 heap m)

/-- The loop of `heap_free`, which goes down from the block's first page. -/
def heapUnmap (addr stop : UInt32) (m : Machine) : Option Machine :=
  (whileLoop (fun x => decide (x.1 < stop)) (fun x => some (unmapTurn x)) (2 ^ 32)
    (addr, m)).map Prod.snd

/-- The entry that `heap_free` works out for an address. -/
def addrEntry (heap : Heap) (addr : UInt32) : UInt32 := (heap.start - addr) / 0x1000

def heapFree (addr size : UInt32) (m : Machine) : Option (UInt32 × Machine) :=
  match m.kernelHeap with
  | none => some (0, m)
  | some heap =>
    if size &&& 0xFFF ≠ 0 then some (0, m)
    else
      (heapUnmap addr (addr + size) (markHeap (addrEntry heap addr)
        (addrEntry heap addr + size / 0x1000) 0 heap m)).map fun m => (1, m)

/-! ### What the calls do to the heap -/

theorem unmapTurn_keeps (x : UInt32 × Machine) : Keeps x.2 (unmapTurn x).2 :=
  (frameFree_keeps _ x.2).trans (pageUnmap_keeps _ _ _)

/-- A turn of the mapping loop finds a frame and maps the page to it. -/
theorem mapTurn_spec {m : Machine} {i : UInt32} (hi : PageAligned i)
    (hsize : m.frameBitmap.size ≠ 0xFFFFFFFF) : ∃ frame m₁ m₂, frameAlloc m = some (frame, m₁) ∧
      pageMap frame i 3 0 m₁ = some (i, m₂) ∧ Maps m m₂ := by
  obtain ⟨frame, m₁, hm₁⟩ := frameAlloc_total m hsize
  obtain ⟨hmaps₁, hframe⟩ := frameAlloc_maps hm₁
  obtain ⟨m₂, hm₂, hmaps₂⟩ := pageMap_spec 3 hframe hi (hmaps₁.size_ne hsize)
  exact ⟨frame, m₁, m₂, hm₁, hm₂, hmaps₁.trans hmaps₂⟩

/-- The page after one below the end has not wrapped. -/
theorem toNat_nextPage {i stop : UInt32} (hi : PageAligned i) (hstop : PageAligned stop)
    (hlt : i < stop) : (i + 0x1000).toNat = i.toNat + 0x1000 ∧ i + 0x1000 ≠ 0 := by
  have hi1 : (i + 0x1000).toNat = i.toNat + 0x1000 := by
    rw [pageAligned_iff] at hi hstop
    rw [UInt32.lt_iff_toNat_lt] at hlt
    have := stop.toNat_lt
    exact toNat_add_of_lt (by simp only [UInt32.reduceToNat]; omega)
  refine ⟨hi1, fun he => ?_⟩
  rw [he, UInt32.toNat_zero] at hi1
  omega

/-- **The mapping loop** ends, with every page mapped, and gives back the first page. -/
theorem heapMapFrom_spec {addr stop : UInt32} (hstop : PageAligned stop) :
    ∀ (fuel : ℕ) (i : UInt32) (m : Machine), PageAligned i → i ≠ 0 →
      m.frameBitmap.size ≠ 0xFFFFFFFF → stop.toNat - i.toNat < fuel →
      ∃ m', heapMapFrom addr stop fuel i m = some (addr, m') ∧ Maps m m' := by
  intro fuel
  induction fuel with
  | zero => intro i m _ _ _ hf; omega
  | succ fuel ih =>
    intro i m hi h0 hsize hf
    unfold heapMapFrom
    by_cases hlt : i < stop
    · obtain ⟨frame, m₁, m₂, hm₁, hm₂, hmaps⟩ := mapTurn_spec hi hsize
      rw [if_pos hlt, hm₁, Option.bind_some]
      simp only [hm₂, Option.bind_some, if_neg h0]
      obtain ⟨hi1, hne⟩ := toNat_nextPage hi hstop hlt
      obtain ⟨m', hm', hmaps'⟩ := ih (i + 0x1000) m₂ (hi.add (by decide)) hne
        (hmaps.size_ne hsize) (by rw [UInt32.lt_iff_toNat_lt] at hlt; omega)
      exact ⟨m', hm', hmaps.trans hmaps'⟩
    · exact ⟨m, by rw [if_neg hlt], Maps.refl m⟩

/-- The heap as far as its calls need it: page-aligned, with a bitmap and a frame bitmap that can be
searched to the end. -/
structure HeapReady (m : Machine) (heap : Heap) : Prop where
  heap_eq : m.kernelHeap = some heap
  start_aligned : PageAligned heap.start
  bitmap_size : heap.bitmap.size ≠ 0xFFFFFFFF
  frame_size : m.frameBitmap.size ≠ 0xFFFFFFFF

/-- The heap with one entry rewritten is searched as before. -/
theorem HeapReady.mark {m m' : Machine} {heap : Heap} (h : HeapReady m heap) {start stop value : UInt32}
    (hk : Keeps (markHeap start stop value heap m) m') :
    HeapReady m' { heap with bitmap := bitmapMap start stop value heap.bitmap } := by
  refine ⟨hk.kernelHeap_eq, h.start_aligned, ?_, hk.size_ne h.frame_size⟩
  show (bitmapMap start stop value heap.bitmap).size ≠ _
  rw [(bitmapMap_words start stop value heap.bitmap).1]
  exact h.bitmap_size

theorem entryAddr_aligned {m : Machine} {heap : Heap} (h : HeapReady m heap) (index : UInt32) :
    PageAligned (entryAddr heap index) :=
  h.start_aligned.sub (pageAligned_mul index)

/-- Whether a search result is the entry of a page of the heap. -/
def EntryOk (heap : Heap) (index : UInt32) : Prop :=
  entryAddr heap index ≠ 0 ∧ entryAddr heap index ≤ heap.start

instance (heap : Heap) (index : UInt32) : Decidable (EntryOk heap index) :=
  inferInstanceAs (Decidable (_ ∧ _))

/-- The entry a request for `size` bytes comes out at. -/
def foundEntry (size : UInt32) (m : Machine) : UInt32 :=
  (m.kernelHeap.bind fun heap => bitmapEntrieFind (size / 0x1000) 0 heap.bitmap).getD 0

theorem HeapReady.find {m : Machine} {heap : Heap} (h : HeapReady m heap) (size : UInt32) :
    bitmapEntrieFind (size / 0x1000) 0 heap.bitmap = some (foundEntry size m) := by
  obtain ⟨index, hindex⟩ := bitmapEntrieFind_total (size / 0x1000) 0 heap.bitmap h.bitmap_size
  rw [foundEntry, h.heap_eq, Option.bind_some, hindex, Option.getD_some]

theorem EntryOk.not_refused {heap : Heap} {index : UInt32} (h : EntryOk heap index) :
    ¬ (entryAddr heap index = 0 ∨ entryAddr heap index > heap.start) := by
  rintro (h0 | hgt)
  · exact h.1 h0
  · exact absurd h.2 (UInt32.not_le.2 hgt)

/-- With an entry of the heap `heap_alloc` marks the run and goes on to the mapping loop. -/
theorem heapAlloc_run {m : Machine} {heap : Heap} (h : HeapReady m heap) {size : UInt32}
    (hsize : PageAligned size) (hok : EntryOk heap (foundEntry size m)) :
    heapAlloc size m = heapMapFrom (entryAddr heap (foundEntry size m))
      (entryAddr heap (foundEntry size m) + size) (2 ^ 32) (entryAddr heap (foundEntry size m))
      (markHeap (foundEntry size m) (foundEntry size m + size / 0x1000) 1 heap m) := by
  have hcond : ¬ size &&& 0xFFF ≠ 0 := not_not.2 hsize
  unfold heapAlloc
  simp only [h.heap_eq, if_neg hcond, h.find size, Option.bind_some]
  rw [if_neg hok.not_refused]

/-- **What `heap_alloc` does.**  It searches the bitmap; for an entry of the heap it marks the run
and maps the pages, and otherwise it changes nothing and returns null. -/
theorem heapAlloc_spec {m : Machine} {heap : Heap} (h : HeapReady m heap) (size : UInt32)
    (hsize : PageAligned size) :
    FindResult heap.bitmap 0 (max (size / 0x1000).toNat 1) (foundEntry size m) ∧
      (¬ EntryOk heap (foundEntry size m) → heapAlloc size m = some (0, m)) ∧
      (EntryOk heap (foundEntry size m) →
        ∃ m', heapAlloc size m = some (entryAddr heap (foundEntry size m), m') ∧
          Maps (markHeap (foundEntry size m) (foundEntry size m + size / 0x1000) 1 heap m) m') := by
  refine ⟨bitmapEntrieFind_spec (h.find size), fun hno => ?_, fun hok => ?_⟩
  · have hcond : ¬ size &&& 0xFFF ≠ 0 := not_not.2 hsize
    rw [EntryOk, not_and_or, not_not, UInt32.not_le] at hno
    unfold heapAlloc
    simp only [h.heap_eq, if_neg hcond, h.find size, Option.bind_some]
    rw [if_pos hno]
  · have ha := entryAddr_aligned h (foundEntry size m)
    rw [heapAlloc_run h hsize hok]
    exact heapMapFrom_spec (ha.add hsize) (2 ^ 32) _ _ ha hok.1 h.frame_size
      (lt_of_le_of_lt (Nat.sub_le _ _) (UInt32.toNat_lt _))

/-- A request that is not for whole pages is turned down. -/
theorem heapAlloc_unaligned {m : Machine} {size : UInt32} (hsize : ¬ PageAligned size) :
    heapAlloc size m = some (0, m) := by
  have hcond : size &&& 0xFFF ≠ 0 := hsize
  unfold heapAlloc
  split
  · rfl
  · rw [if_pos hcond]

/-- **The loop of `heap_free`** ends: it goes down, and from page zero to the top of the address
space, where it stops. -/
theorem heapUnmap_spec {addr stop : UInt32} {m : Machine} (I : UInt32 × Machine → Prop)
    (hstop : PageAligned stop) (haddr : PageAligned addr) (h : I (addr, m))
    (hstep : ∀ x, I x → x.1 < stop → PageAligned x.1 → I (unmapTurn x)) :
    ∃ x, heapUnmap addr stop m = some x.2 ∧ I x ∧ PageAligned x.1 ∧ stop ≤ x.1 := by
  have hturn : ∀ x : UInt32 × Machine, (I x ∧ PageAligned x.1) → decide (x.1 < stop) = true →
      ∃ x', some (unmapTurn x) = some x' ∧ (I x' ∧ PageAligned x'.1) ∧
        (if x'.1 < stop then x'.1.toNat + 1 else 0) < if x.1 < stop then x.1.toNat + 1 else 0 := by
    rintro x ⟨hI, ha⟩ hlt
    rw [decide_eq_true_iff] at hlt
    refine ⟨_, rfl, ⟨hstep x hI hlt ha, ha.sub (by decide)⟩, ?_⟩
    show (if x.1 - 0x1000 < stop then (x.1 - 0x1000).toNat + 1 else 0) < _
    rw [if_pos hlt]
    split
    · rename_i hlt'
      rw [pageAligned_iff] at ha hstop
      rw [UInt32.lt_iff_toNat_lt] at hlt hlt'
      have hs := stop.toNat_lt
      by_cases hle : (0x1000 : UInt32).toNat ≤ x.1.toNat
      · rw [toNat_sub_of_le hle]
        simp only [UInt32.reduceToNat] at hle ⊢
        omega
      · rw [toNat_sub_of_lt (Nat.lt_of_not_le hle)] at hlt'
        simp only [UInt32.reduceToNat] at hle hlt'
        omega
    · omega
  obtain ⟨x, hx, ⟨hI, ha⟩, hc⟩ := whileLoop_spec (fun x : UInt32 × Machine => I x ∧ PageAligned x.1)
    (fun x => if x.1 < stop then x.1.toNat + 1 else 0) hturn (2 ^ 32) (addr, m) ⟨h, haddr⟩ (by
      have := addr.toNat_lt
      have := stop.toNat_lt
      split
      · rename_i hlt
        rw [UInt32.lt_iff_toNat_lt] at hlt
        omega
      · exact Nat.two_pow_pos 32)
  refine ⟨x, by rw [heapUnmap, hx, Option.map_some], hI, ha, ?_⟩
  exact UInt32.not_lt.1 (of_decide_eq_false hc)

/-- `heap_free` clears the run that it works out from the address, and goes on to its loop. -/
theorem heapFree_run {m : Machine} {heap : Heap} (h : HeapReady m heap) {addr size : UInt32}
    (hsize : PageAligned size) : heapFree addr size m = (heapUnmap addr (addr + size)
      (markHeap (addrEntry heap addr) (addrEntry heap addr + size / 0x1000) 0 heap m)).map
        fun m => (1, m) := by
  have hcond : ¬ size &&& 0xFFF ≠ 0 := not_not.2 hsize
  unfold heapFree
  simp only [h.heap_eq, if_neg hcond]

/-- **What `heap_free` does** to the heap: it clears the run that it works out from the address. -/
theorem heapFree_spec {m : Machine} {heap : Heap} (h : HeapReady m heap) {addr size : UInt32}
    (haddr : PageAligned addr) (hsize : PageAligned size) :
    ∃ m', heapFree addr size m = some (1, m') ∧
      Keeps (markHeap (addrEntry heap addr) (addrEntry heap addr + size / 0x1000) 0 heap m) m' := by
  rw [heapFree_run h hsize]
  generalize markHeap (addrEntry heap addr) (addrEntry heap addr + size / 0x1000) 0 heap m = m₁
  obtain ⟨x, hx, hkeeps, -, -⟩ := heapUnmap_spec (fun x => Keeps m₁ x.2) (haddr.add hsize) haddr
    (Keeps.refl m₁) fun x hx _ _ => hx.trans (unmapTurn_keeps x)
  exact ⟨x.2, by rw [hx, Option.map_some], hkeeps⟩

/-! ### Runs -/

/-- A live allocation: what `heap_alloc` was asked for and returned, and the entry it came out at. -/
structure Block where
  addr : UInt32
  size : UInt32
  index : UInt32
  deriving DecidableEq

inductive HeapOp
  | alloc (size : UInt32)
  | free (block : Block)

structure HeapRun where
  machine : Machine
  live : List Block

/-- One call.  `heap_free` is given a live allocation. -/
def heapStep (r : HeapRun) : HeapOp → Option HeapRun
  | .alloc size => (heapAlloc size r.machine).map fun x =>
    { machine := x.2
      live := if x.1 = (0 : UInt32) then r.live
        else ⟨x.1, size, foundEntry size r.machine⟩ :: r.live }
  | .free block =>
    if block ∈ r.live then
      (heapFree block.addr block.size r.machine).map fun x =>
        { machine := x.2, live := r.live.erase block }
    else none

end CometOS
