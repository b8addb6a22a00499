import CometOS.HeapFrames
import CometOS.HeapFree
import CometOS.KernelMemory

/-!
# `heap_alloc` and `heap_free` in the kernel's memory

While the entries they search and set are the heap's own words, the frames they take and free have words of
their own, and the pages they map and unmap are none of the memory code's, both calls do on the computer
what they do on the machine.
-/

namespace CometOS

open ByteMemory Loop Paged Word32

section

variable {L : KernelLayout} {c : Computer} {m : Machine} {heap : Heap}

/-! ### Frames and pages -/

/-- The place of a page's word. -/
theorem KernelLayout.word_place (L : KernelLayout) {i : ℕ} (hi : i < 1024) :
    phyGet (L.table ||| 3) + 4 * tlbGet (pageAddr i) = L.table + 4 * UInt32.ofNat i := by
  rw [phyGet_three L.table_aligned, ofNat_tlbGet hi]

section

variable (h : KernelAt L c m heap)

include h

/-- The computer and a machine with the same memory. -/
theorem KernelAt.frameSim : FrameSim L.frames c
    ⟨c.kernelPointer, m.frameBitmap, m.kernelHeap, c.pagingState, c.cr3, c.mem⟩ :=
  ⟨rfl, rfl, rfl, h.frameBitmap_eq, h.frames, fun _ _ => rfl⟩

theorem KernelAt.frames_lt {i : ℕ} (hi : i ∈ freeFrames m) :
    i < L.frames.count ∧ i < 2 ^ 20 ∧ m.frameBitmap.words (UInt32.ofNat i) = 0 ∧ ¬ L.Own i := by
  obtain ⟨his, hi20, h0⟩ := mem_freeFrames.1 hi
  rw [h.tables.size_eq] at his
  exact ⟨his, hi20, h0, fun hown => h.tables.used i hown h0⟩

/-- `frame_alloc` takes the first free frame. -/
theorem KernelAt.allocFrame {f : ℕ} (hf : f ∈ freeFrames m) (hleast : ∀ j ∈ freeFrames m, f ≤ j) :
    ∃ c', c.frameAlloc = some (pageAddr f, c') ∧ KernelAt L c' (frameSet (pageAddr f) m) heap := by
  obtain ⟨hfc, hf20, h0, -⟩ := h.frames_lt hf
  obtain ⟨c', hc', hchange, hsim⟩ := h.frameSim.allocFrame h.frames_seen hf20 hfc (fun i hi hw => by
    have hmem : i.toNat ∈ freeFrames m := by
      refine mem_freeFrames.2 ⟨?_, by omega, ?_⟩
      · rw [h.tables.size_eq]
        omega
      · rw [ofNat_toNat]
        exact hw
    have := hleast _ hmem
    omega) h0
  refine ⟨c', hc', h.changeFrames hchange hsim.bitmap rfl fun i hi => ?_⟩
  show (if UInt32.ofNat i = pageAddr f / 0x1000 then (1 : UInt32) else
    m.frameBitmap.words (UInt32.ofNat i)) ≠ 0
  split
  · decide
  · exact h.tables.used i hi

/-- `frame_free` of a frame that is not the memory code's. -/
theorem KernelAt.freeFrame {f : ℕ} (hf : f < L.frames.count) (hf20 : f < 2 ^ 20) (hown : ¬ L.Own f) :
    ∃ c', c.frameFree (pageAddr f) = some c' ∧ KernelAt L c' (frameFree (pageAddr f) m) heap := by
  have hdiv := pageAddr_div hf20
  obtain ⟨c', hc', hchange, hsim⟩ := h.frameSim.freeFrame h.frames_seen (pageAddr f) (by omega)
  refine ⟨c', hc', h.changeFrames hchange hsim.bitmap rfl fun i hi => ?_⟩
  show (if UInt32.ofNat i = pageAddr f / 0x1000 then (0 : UInt32) else
    m.frameBitmap.words (UInt32.ofNat i)) ≠ 0
  rw [if_neg]
  · exact h.tables.used i hi
  · intro he
    have hL := L.one_table
    have hi2 := hi.2
    have hn := congrArg UInt32.toNat he
    rw [hdiv, toNat_ofNat_of_lt (by omega)] at hn
    exact hown (hn ▸ hi)

theorem KernelAt.load_pde {i : ℕ} (hi : i < 1024) :
    c.load32 (pdeAddr (c.directoryOf 0) (pageAddr i)) = some (L.table ||| 3) := by
  have hload := h.load_word (Or.inl rfl) (i := 0) (by decide)
  rw [h.tables.entry] at hload
  show c.load32 (c.cr3 + 4 * dirGet (pageAddr i)) = _
  rw [h.cr3_eq, dirGet_zero hi]
  exact hload

theorem KernelAt.word_direct {i : ℕ} (hi : i < 1024) : Direct c.walk (L.table + 4 * UInt32.ofNat i) 4 := by
  have hL := L.order
  have hn : (UInt32.ofNat i).toNat = i := toNat_ofNat_of_lt (by omega)
  have hword := entry_toNat L.table_aligned (i := UInt32.ofNat i) (by omega)
  have ht := L.table_toNat
  exact h.direct (by omega) (by omega)

/-- `page_map` of a page that is none of the memory code's. -/
theorem KernelAt.pageMap {f i : ℕ} (hi : i < 1024) (hown : ¬ L.Own i) (hf : f < L.frames.count)
    (hf20 : f < 2 ^ 20) (hfown : ¬ L.Own f) :
    ∃ c' m', c.pageMap (pageAddr f) (pageAddr i) 3 0 = some (pageAddr i, c') ∧
      CometOS.pageMap (pageAddr f) (pageAddr i) 3 0 m = some (pageAddr i, m') ∧ KernelAt L c' m' heap ∧
      m'.frameBitmap = m.frameBitmap ∧
      ∀ j < 1024, m'.word L j = if j = i then pageAddr f ||| 3 ||| 1 else m.word L j := by
  have hfa := pageAddr_aligned hf20
  have hia := pageAddr_aligned (i := i) (by omega)
  have hpres := h.tables.pde_present hi
  have hw : Present (pageAddr f ||| 3 ||| 1) → ∃ g, phyGet (pageAddr f ||| 3 ||| 1) = pageAddr g ∧
      g < L.frames.count + 1024 ∧ (i < 0x100 → g < L.frames.count ∧ ¬ L.Own g) := fun _ =>
    ⟨f, phyGet_or_flags hfa, by omega, fun _ => ⟨hf, hfown⟩⟩
  have hkeep := h.changeWord hi hown _ hw
  refine ⟨_, _, ?_, pageMap_present hfa hia hpres, hkeep, rfl, (h.tables.write hi hown _ hw).2⟩
  have hcond : ¬ (pageAddr i &&& 0xFFF ≠ 0 ∨ pageAddr f &&& 0xFFF ≠ 0) := by
    rintro (hc | hc)
    · exact hc hia
    · exact hc hfa
  rw [Computer.pageMap, if_neg hcond, Computer.pageMapTable, h.load_pde hi, Option.bind_some,
    if_neg (not_not.2 (present_or_three _)), Option.bind_some, Computer.tableWord, h.load_pde hi,
    Option.map_some, Option.bind_some, L.word_place hi, Computer.store32_of_direct (h.word_direct hi),
    Option.map_some]

end

/-! ### `heap_alloc` -/

/-- The pages from `i` to `s` have been given free frames, and the other words of the table are as
before. -/
structure PagesMapped (L : KernelLayout) (i s : ℕ) (m m' : Machine) : Prop where
  others : ∀ j < 1024, j < i ∨ s ≤ j → m'.word L j = m.word L j
  pages : ∀ j, i ≤ j → j < s → ∃ f ∈ freeFrames m, m'.word L j = pageAddr f ||| 3 ||| 1
  free : freeFrames m' ⊆ freeFrames m
  card : (freeFrames m').card + (s - i) = (freeFrames m).card

/-- One page more at the front. -/
theorem PagesMapped.cons {i s f : ℕ} {m m₁ m₂ m' : Machine} (hf : f ∈ freeFrames m)
    (hfree : freeFrames m₁ = (freeFrames m).erase f) (hframes : m₂.frameBitmap = m₁.frameBitmap)
    (hi : i < s) (hs : s ≤ 1024) (hsame : ∀ j < 1024, m₁.word L j = m.word L j)
    (hword : ∀ j < 1024, m₂.word L j = if j = i then pageAddr f ||| 3 ||| 1 else m₁.word L j)
    (h : PagesMapped L (i + 1) s m₂ m') : PagesMapped L i s m m' := by
  have hfree₂ : freeFrames m₂ = (freeFrames m).erase f := (freeFrames_congr hframes).trans hfree
  have hsub : freeFrames m₂ ⊆ freeFrames m := hfree₂ ▸ Finset.erase_subset _ _
  have hcard := Finset.card_erase_of_mem hf
  have hpos := Finset.card_pos.2 ⟨f, hf⟩
  refine ⟨fun j hj hji => ?_, fun j hij hjs => ?_, h.free.trans hsub, ?_⟩
  · rw [h.others j hj (by omega), hword j hj, if_neg (by omega), hsame j hj]
  · rcases Nat.lt_or_eq_of_le hij with hlt | rfl
    · obtain ⟨g, hg, hgw⟩ := h.pages j hlt hjs
      exact ⟨g, hsub hg, hgw⟩
    · exact ⟨f, hf, by rw [h.others i (by omega) (Or.inl (Nat.lt_succ_self i)), hword i (by omega),
        if_pos rfl]⟩
  · have hrest := h.card
    rw [hfree₂] at hrest
    omega

/-- **The mapping loop**, over `n` pages of the one table that are none of the memory code's, with free
frames for them, as far as the page behind them. -/
theorem KernelAt.mapTo (addr stop : UInt32) (fuel : ℕ) {s : ℕ} (hs : s ≤ 1024)
    (hstop : s * 0x1000 ≤ stop.toNat) :
    ∀ (n i : ℕ) (c : Computer) (m : Machine), 0 < i → i + n = s → KernelAt L c m heap →
      (∀ j, i ≤ j → j < s → ¬ L.Own j) → n ≤ (freeFrames m).card →
      ∃ c' m', c.heapMapFrom addr stop (fuel + n) (pageAddr i) = c'.heapMapFrom addr stop fuel (pageAddr s) ∧
        heapMapFrom addr stop (fuel + n) (pageAddr i) m = heapMapFrom addr stop fuel (pageAddr s) m' ∧
        KernelAt L c' m' heap ∧ PagesMapped L i s m m' := by
  intro n
  induction n with
  | zero =>
    intro i c m _ his h _ _
    obtain rfl : i = s := his
    exact ⟨c, m, rfl, rfl, h, fun j _ _ => rfl, fun j hij hji => by omega, Finset.Subset.refl _, by omega⟩
  | succ n ih =>
    intro i c m hi0 his h hown hcard
    have hito := pageAddr_toNat (i := i) (by omega)
    have hcond : pageAddr i < stop := by
      rw [UInt32.lt_iff_toNat_lt]
      omega
    have hne : pageAddr i ≠ 0 := by
      intro he
      rw [he, UInt32.toNat_zero] at hito
      omega
    have hsize : m.frameBitmap.size ≠ 0xFFFFFFFF := by
      intro he
      have hcount := h.tables.size_eq
      have hw := L.frames.words
      rw [he, show (0xFFFFFFFF : UInt32).toNat = 2 ^ 32 - 1 from rfl] at hcount
      omega
    obtain ⟨f, hf, halloc, hfree, hleast⟩ := frameAlloc_least hsize (Finset.card_pos.1 (by omega))
    obtain ⟨hfc, hf20, -, hfown⟩ := h.frames_lt hf
    obtain ⟨c₁, hc₁, h₁⟩ := h.allocFrame hf fun j hj => by
      by_cases hjf : j = f
      · omega
      · exact (hleast j (Finset.mem_erase.2 ⟨hjf, hj⟩)).le
    obtain ⟨c₂, m₂, hc₂, hm₂, h₂, hframes, hword⟩ :=
      h₁.pageMap (i := i) (by omega) (hown i le_rfl (by omega)) hfc hf20 hfown
    have hfree₂ : freeFrames m₂ = (freeFrames m).erase f := (freeFrames_congr hframes).trans hfree
    have hcard₂ := Finset.card_erase_of_mem hf
    obtain ⟨c', m', hc', hm', h', hmapped⟩ := ih (i + 1) c₂ m₂ (Nat.succ_pos i) (by omega) h₂
      (fun j hij hjs => hown j (by omega) hjs) (by rw [hfree₂, hcard₂]; omega)
    refine ⟨c', m', ?_, ?_, h', hmapped.cons hf hfree hframes (by omega) hs (fun j hj => rfl) hword⟩
    · rw [← Nat.add_assoc, Computer.heapMapFrom, if_pos hcond, hc₁, Option.bind_some, hc₂, Option.bind_some,
        if_neg hne, pageAddr_succ (by omega), hc']
    · rw [← Nat.add_assoc, CometOS.heapMapFrom, if_pos hcond, halloc, Option.bind_some, hm₂, Option.bind_some,
        if_neg hne, pageAddr_succ (by omega), hm']

/-- The whole loop. -/
theorem KernelAt.mapFrom (h : KernelAt L c m heap) (addr : UInt32) {s : ℕ} (hs : s ≤ 1024) {fuel i : ℕ}
    (hi : 0 < i) (his : i ≤ s) (hfuel : s - i < fuel) (hown : ∀ j, i ≤ j → j < s → ¬ L.Own j)
    (hcard : s - i ≤ (freeFrames m).card) :
    ∃ c' m', c.heapMapFrom addr (pageAddr s) fuel (pageAddr i) = some (addr, c') ∧
      heapMapFrom addr (pageAddr s) fuel (pageAddr i) m = some (addr, m') ∧ KernelAt L c' m' heap ∧
      PagesMapped L i s m m' := by
  obtain ⟨c', m', hc', hm', h', hmapped⟩ := mapTo addr (pageAddr s) (fuel - (s - i) - 1 + 1) hs
    (by rw [pageAddr_toNat (by omega)]) (s - i) i c m hi (by omega) h hown hcard
  have hdone : ¬ pageAddr s < pageAddr s := UInt32.lt_irrefl _
  rw [show fuel - (s - i) - 1 + 1 + (s - i) = fuel by omega] at hc' hm'
  refine ⟨c', m', ?_, ?_, h', hmapped⟩
  · rw [hc', Computer.heapMapFrom, if_neg hdone]
  · rw [hm', CometOS.heapMapFrom, if_neg hdone]

/-- The entry that a request comes out at. -/
def Computer.heapEntry (size : UInt32) (c : Computer) : Option UInt32 :=
  (c.load32 (c.kernelHeap + 9)).bind fun bitmap => c.bitmapEntrieFind (size / 0x1000) 0 bitmap

section

variable {size index : UInt32} (h : KernelAt L c m heap)

include h

theorem KernelAt.heapReady : HeapReady m heap := by
  have hf := L.frames.words
  have he := L.entries.words
  have hfc := h.tables.size_eq
  have hec := h.heapAt.bitmap.count_eq
  refine ⟨h.heap_eq, h.start_aligned, fun hc => ?_, fun hc => ?_⟩
  · rw [hc, show (0xFFFFFFFF : UInt32).toNat = 2 ^ 32 - 1 from rfl] at hec
    omega
  · rw [hc, show (0xFFFFFFFF : UInt32).toNat = 2 ^ 32 - 1 from rfl] at hfc
    omega

/-- **The search**, while it comes out among the heap's own words. -/
theorem KernelAt.foundEntry (hfind : c.heapEntry size = some index)
    (hin : index.toNat + max (size / 0x1000).toNat 1 ≤ L.entries.count) :
    foundEntry size m = index := by
  obtain ⟨-, -, hbitmap⟩ := h.load_heap
  rw [Computer.heapEntry, hbitmap, Option.bind_some] at hfind
  have hresult := h.heapAt.bitmap.findResult h.entries_seen hin hfind
  exact (bitmapEntrieFind_spec (h.heapReady.find size)).unique hresult

/-- A search that comes out at no page of the heap. -/
theorem KernelAt.allocNone (hsize : PageAligned size) (hfind : c.heapEntry size = some index)
    (hin : index.toNat + max (size / 0x1000).toNat 1 ≤ L.entries.count) (hno : ¬ EntryOk heap index) :
    c.heapAlloc size c.kernelHeap = some (0, c) ∧ CometOS.heapAlloc size m = some (0, m) := by
  have hentry := h.foundEntry hfind hin
  obtain ⟨hstart, -, hbitmap⟩ := h.load_heap
  constructor
  · rw [Computer.heapEntry, hbitmap, Option.bind_some] at hfind
    have hrefused : heap.start - index * 0x1000 = 0 ∨ heap.start - index * 0x1000 > heap.start := by
      rw [EntryOk, not_and_or, not_not, UInt32.not_le] at hno
      exact hno
    have hcond : ¬ size &&& 0xFFF ≠ 0 := not_not.2 hsize
    rw [Computer.heapAlloc, if_neg h.heap_ne_zero, if_neg hcond, hbitmap, Option.bind_some,
      hfind, Option.bind_some, hstart, Option.bind_some, if_pos hrefused]
  · exact (heapAlloc_spec h.heapReady size hsize).2.1 (by rwa [hentry])

/-- The pages of a block, as numbers. -/
theorem KernelAt.entry_page (hok : EntryOk heap index) :
    entryAddr heap index = pageAddr ((entryAddr heap index).toNat / 0x1000) ∧
      0 < (entryAddr heap index).toNat / 0x1000 := by
  have hal := entryAddr_aligned h.heapReady index
  have hpos := toNat_pos hok.1
  rw [pageAligned_iff] at hal
  exact ⟨(pageAddr_of_aligned ((pageAligned_iff _).2 hal)).symm, by omega⟩

/-- **`heap_alloc`**, where its pages are of the one table and none of the memory code's, and there are
free frames for them. -/
theorem KernelAt.heapAlloc {a : ℕ} (hsize : PageAligned size) (hfind : c.heapEntry size = some index)
    (hin : index.toNat + max (size / 0x1000).toNat 1 ≤ L.entries.count) (hok : EntryOk heap index)
    (ha : (entryAddr heap index).toNat / 0x1000 = a) (hs : a + (size / 0x1000).toNat ≤ 1024)
    (hown : ∀ j, a ≤ j → j < a + (size / 0x1000).toNat → ¬ L.Own j)
    (hfree : (size / 0x1000).toNat ≤ (freeFrames m).card) :
    ∃ c' m', c.heapAlloc size c.kernelHeap = some (entryAddr heap index, c') ∧
      CometOS.heapAlloc size m = some (entryAddr heap index, m') ∧
      KernelAt L c' m' { heap with bitmap := bitmapMap index (index + size / 0x1000) 1 heap.bitmap } ∧
      PagesMapped L a (a + (size / 0x1000).toNat) m m' := by
  have hentry := h.foundEntry hfind hin
  have hrun := heapAlloc_run h.heapReady hsize (by rwa [hentry])
  rw [hentry] at hrun
  obtain ⟨hstart, -, hbitmap⟩ := h.load_heap
  obtain ⟨haddr, ha0⟩ := h.entry_page hok
  rw [ha] at haddr ha0
  have hstop : entryAddr heap index + size = pageAddr (a + (size / 0x1000).toNat) := by
    have hal := (pageAligned_iff size).1 hsize
    have hdiv : (size / 0x1000).toNat = size.toNat / 0x1000 := UInt32.toNat_div _ _
    have hato := pageAddr_toNat (i := a) (by omega)
    apply eq_of_toNat
    rw [haddr, pageAddr_toNat (by omega), toNat_add_of_lt (by omega)]
    omega
  have hindex : (index + size / 0x1000).toNat ≤ L.entries.count := by
    have hw := L.entries.words
    rw [toNat_add_of_lt (by omega)]
    omega
  obtain ⟨mem, hmark, hat, hout⟩ := h.heapAt.bitmap.map h.entries_seen index hindex 1
  have h₁ := h.changeEntries hat hout
  rw [hstop, haddr] at hrun
  obtain ⟨c', m', hc', hm', h', hmapped⟩ := h₁.mapFrom (pageAddr a) hs ha0 (by omega)
    (show _ < 2 ^ 32 by omega) hown (by rw [Nat.add_sub_cancel_left]; exact hfree)
  refine ⟨c', m', ?_, ?_, h', ⟨hmapped.others, hmapped.pages, hmapped.free, hmapped.card⟩⟩
  · rw [Computer.heapEntry, hbitmap, Option.bind_some] at hfind
    have hkeep : ¬ (heap.start - index * 0x1000 = 0 ∨ heap.start - index * 0x1000 > heap.start) :=
      hok.not_refused
    have hcond : ¬ size &&& 0xFFF ≠ 0 := not_not.2 hsize
    rw [Computer.heapAlloc, if_neg h.heap_ne_zero, if_neg hcond, hbitmap, Option.bind_some,
      hfind, Option.bind_some, hstart, Option.bind_some, if_neg hkeep, hmark, Option.bind_some]
    show CometOS.Computer.heapMapFrom (entryAddr heap index) (entryAddr heap index + size) (2 ^ 32)
      (entryAddr heap index) { c with mem } = _
    rw [hstop, haddr]
    exact hc'
  · rw [hrun, haddr]
    exact hm'

end

/-! ### `heap_free` -/

/-- A loop that is not entered. -/
theorem heapUnmap_done {addr stop : UInt32} (h : ¬ addr < stop) : heapUnmap addr stop m = some m :=
  congrArg (Option.map Prod.snd) (whileLoop_done (Nat.two_pow_pos 32) (decide_eq_false h))

theorem Computer.heapUnmap_done {addr stop : UInt32} (h : ¬ addr < stop) :
    c.heapUnmap addr stop = some c :=
  congrArg (Option.map Prod.snd) (whileLoop_done (Nat.two_pow_pos 32) (decide_eq_false h))

section

variable (h : KernelAt L c m heap)

include h

theorem KernelAt.load_page {i : ℕ} (hi : i < 1024) :
    c.load32 (L.table + 4 * UInt32.ofNat i) = some (m.word L i) :=
  h.load_word (Or.inr rfl) (by rw [toNat_ofNat_of_lt (by omega)]; exact hi)

/-- The frame behind a page below the first MiB is none of the memory code's, and the first frame, which
`page_physaddr` gives for a page that is not mapped, is not either. -/
theorem KernelAt.physFrame {i : ℕ} (hi : i < 0x100) :
    ∃ f, CometOS.pagePhysaddr (pageAddr i) 0 m = pageAddr f ∧ f < L.frames.count ∧ f < 2 ^ 20 ∧ ¬ L.Own f ∧
      c.pagePhysaddr (pageAddr i) 0 = some (pageAddr f) := by
  have hL := L.order
  have hal := pageAddr_aligned (i := i) (by omega)
  have hcond : ¬ pageAddr i &&& 0xFFF ≠ 0 := not_not.2 hal
  have hmach := pagePhysaddr_eq m 0 hal
  have htrans := h.tables.translate (i := i) (by omega)
  have hload : c.load32 (phyGet (L.table ||| 3) + 4 * tlbGet (pageAddr i)) = some (m.word L i) := by
    rw [L.word_place (by omega)]
    exact h.load_page (by omega)
  have hcode : c.pagePhysaddr (pageAddr i) 0 =
      some (if Present (m.word L i) then phyGet (m.word L i) else 0) := by
    rw [Computer.pagePhysaddr, if_neg hcond, h.load_pde (by omega), Option.bind_some,
      if_neg (not_not.2 (present_or_three _)), hload, Option.map_some, show pageAddr i &&& 0xFFF = 0 from hal,
      UInt32.add_zero, ite_not]
  rw [hcode, hmach]
  show ∃ f, (CometOS.translate m (pageAddr i)).getD 0 = pageAddr f ∧ _
  rw [htrans]
  by_cases hp : Present (m.word L i)
  · obtain ⟨f, hf, -, hlow⟩ := h.tables.mapped i (by omega) hp
    obtain ⟨hfc, hfown⟩ := hlow hi
    rw [if_pos hp, if_pos hp, Option.getD_some, hf]
    exact ⟨f, rfl, hfc, by omega, hfown, rfl⟩
  · rw [if_neg hp, if_neg hp]
    exact ⟨0, rfl, by omega, by omega, fun hown => absurd hown.1 (by decide), rfl⟩

/-- `page_unmap` of a page that is none of the memory code's. -/
theorem KernelAt.pageUnmap {i : ℕ} (hi : i < 1024) (hown : ¬ L.Own i) :
    ∃ c', c.pageUnmap (pageAddr i) 0 = some c' ∧ KernelAt L c' (CometOS.pageUnmap (pageAddr i) 0 m) heap := by
  have hal := pageAddr_aligned (i := i) (by omega)
  have hcond : ¬ pageAddr i &&& 0xFFF ≠ 0 := not_not.2 hal
  have hkeep := h.changeWord hi hown 0 fun hc => absurd hc (by decide)
  have hmach : CometOS.pageUnmap (pageAddr i) 0 m =
      { m with mem := write32 m.mem (pteAddr m.mem m.cr3 (pageAddr i)) 0 } := by
    unfold CometOS.pageUnmap
    simp only [pageDirectory, ne_eq, not_true_eq_false, if_false, if_neg hcond,
      h.tables.pde_present hi, UInt32.and_zero]
  rw [hmach]
  refine ⟨_, ?_, hkeep⟩
  rw [Computer.pageUnmap, if_neg hcond, h.load_pde hi, Option.bind_some,
    if_neg (not_not.2 (present_or_three _)), L.word_place hi, h.load_page hi, Option.bind_some,
    UInt32.and_zero, Computer.store32_of_direct (h.word_direct hi)]

/-- **A turn** of the loop of `heap_free`, at a page below the first MiB. -/
theorem KernelAt.unmapTurn {i : ℕ} (hi : i < 0x100) :
    ∃ c', Computer.unmapTurn (pageAddr i, c) = some (pageAddr i - 0x1000, c') ∧
      KernelAt L c' (CometOS.unmapTurn (pageAddr i, m)).2 heap := by
  obtain ⟨f, hphys, hf, hf20, hfown, hcode⟩ := h.physFrame hi
  obtain ⟨c₁, hc₁, h₁⟩ := h.freeFrame hf hf20 hfown
  obtain ⟨c', hc', h'⟩ := h₁.pageUnmap (i := i) (by omega) (fun hown => by have := hown.1; omega)
  refine ⟨c', ?_, ?_⟩
  · rw [Computer.unmapTurn, hcode, Option.bind_some, hc₁, Option.bind_some, hc', Option.map_some]
  · rw [CometOS.unmapTurn, hphys]
    exact h'

/-- **The loop of `heap_free`**, from a page below the first MiB. -/
theorem KernelAt.unmapFrom {a : ℕ} {stop : UInt32} (ha : a < 0x100) (hstop : PageAligned stop) :
    ∃ c' m', c.heapUnmap (pageAddr a) stop = some c' ∧ CometOS.heapUnmap (pageAddr a) stop m = some m' ∧
      KernelAt L c' m' heap := by
  obtain ⟨⟨v, m'⟩, hm', -⟩ := heapUnmap_spec (m := m) (fun _ => True) hstop
    (pageAddr_aligned (i := a) (by omega)) trivial fun _ _ _ _ => trivial
  obtain ⟨y, hloop, hy⟩ := Option.map_eq_some_iff.1 hm'
  have htop := le_topPage hstop
  obtain ⟨⟨u', c'⟩, hrun, -, -, h'⟩ := whileLoop_sim
    (fun (x : UInt32 × Computer) (y : UInt32 × Machine) => x.1 = y.1 ∧
      (y.1 < stop → ∃ i < 0x100, y.1 = pageAddr i) ∧ KernelAt L x.2 y.2 heap)
    (c := fun x => decide (x.1 < stop)) (fun x y hxy => by rw [hxy.1])
    (by
      rintro ⟨v, c'⟩ ⟨u, m'⟩ t ⟨rfl, hplace, h'⟩ hc ht
      obtain rfl := Option.some.inj ht
      rw [decide_eq_true_iff] at hc
      obtain ⟨i, hi, rfl⟩ := hplace hc
      obtain ⟨c'', hc'', h''⟩ := h'.unmapTurn hi
      refine ⟨_, hc'', rfl, fun hlt => ?_, h''⟩
      have hbelow := page_below (pageAddr_aligned (i := i) (by omega))
      change pageAddr i - 0x1000 < stop at hlt
      show ∃ j < 0x100, pageAddr i - 0x1000 = pageAddr j
      split at hbelow
      · rw [hbelow, UInt32.lt_iff_toNat_lt] at hlt
        omega
      · have hto := pageAddr_toNat (i := i) (by omega)
        refine ⟨i - 1, by omega, eq_of_toNat ?_⟩
        rw [pageAddr_toNat (by omega)]
        omega)
    (2 ^ 32) (pageAddr a, c) (pageAddr a, m) ⟨rfl, fun _ => ⟨a, ha, rfl⟩, h⟩ _ hloop
  have hym : y.2 = m' := hy
  exact ⟨c', m', by rw [Computer.heapUnmap, hrun, Option.map_some], hm', hym ▸ h'⟩

/-- **`heap_free`** of a block whose loop goes over pages below the first MiB only, or is not entered. -/
theorem KernelAt.heapFree {addr size : UInt32} (haddr : PageAligned addr) (hsize : PageAligned size)
    (hin : (addrEntry heap addr).toNat + (size / 0x1000).toNat ≤ L.entries.count)
    (hlow : size = 0 ∨ addr.toNat < 0x100000) :
    ∃ c' m', c.heapFree addr size c.kernelHeap = some (1, c') ∧ CometOS.heapFree addr size m = some (1, m') ∧
      KernelAt L c' m' { heap with
        bitmap := bitmapMap (addrEntry heap addr) (addrEntry heap addr + size / 0x1000) 0 heap.bitmap } := by
  obtain ⟨hstart, -, hbitmap⟩ := h.load_heap
  have hcond : ¬ size &&& 0xFFF ≠ 0 := not_not.2 hsize
  have hindex : (addrEntry heap addr + size / 0x1000).toNat ≤ L.entries.count := by
    have hw := L.entries.words
    rw [toNat_add_of_lt (by omega)]
    exact hin
  obtain ⟨mem, hmark, hat, hout⟩ := h.heapAt.bitmap.map h.entries_seen (addrEntry heap addr) hindex 0
  obtain ⟨m₁, hm₁⟩ : ∃ m₁, markHeap (addrEntry heap addr) (addrEntry heap addr + size / 0x1000) 0 heap m =
    m₁ := ⟨_, rfl⟩
  have h₁ : KernelAt L { c with mem } m₁ { heap with
      bitmap := bitmapMap (addrEntry heap addr) (addrEntry heap addr + size / 0x1000) 0 heap.bitmap } := by
    rw [← hm₁]
    exact h.changeEntries hat hout
  have hloop : ∃ c' m', Computer.heapUnmap addr (addr + size) { c with mem } = some c' ∧
      CometOS.heapUnmap addr (addr + size) m₁ = some m' ∧ KernelAt L c' m' { heap with
        bitmap := bitmapMap (addrEntry heap addr) (addrEntry heap addr + size / 0x1000) 0 heap.bitmap } := by
    rcases hlow with rfl | hlow
    · have hlt : ¬ addr < addr + 0 := by
        rw [UInt32.add_zero]
        exact UInt32.lt_irrefl addr
      exact ⟨_, _, Computer.heapUnmap_done hlt, heapUnmap_done hlt, h₁⟩
    · have hrun := h₁.unmapFrom (a := addr.toNat / 0x1000) (by omega) (haddr.add hsize)
      rwa [pageAddr_of_aligned haddr] at hrun
  obtain ⟨c', m', hc', hm', h'⟩ := hloop
  refine ⟨c', m', ?_, ?_, h'⟩
  · rw [Computer.heapFree, if_neg h.heap_ne_zero, if_neg hcond, hstart, Option.bind_some, hbitmap,
      Option.bind_some]
    show ((c.bitmapMap (addrEntry heap addr) (addrEntry heap addr + size / 0x1000) 0 L.entries.addr).bind
      fun c => (c.heapUnmap addr (addr + size)).map fun c => ((1 : UInt32), c)) = _
    rw [hmark, Option.bind_some, hc', Option.map_some]
  · rw [heapFree_run h.heapReady hsize, hm₁, hm', Option.map_some]

end

end

end CometOS
