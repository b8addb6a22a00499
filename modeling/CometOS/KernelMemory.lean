import CometOS.BootMapped
import CometOS.Heap

/-!
# The kernel's memory with paging on

`KernelLayout` is where the memory code has its own things: the two bitmaps, with the words that are
theirs, the `heap_t` between them, and behind them the directory and its one table.  `KernelAt` says that
they are there, that their pages are mapped to themselves, and that the bitmaps and the tables hold what a
`Machine` has in them.
-/

namespace CometOS

open ByteMemory Loop Paged Word32

/-- Where the memory code's own things lie, behind the first MiB, one after the other.  The directory is
the page behind them and the table the next. -/
structure KernelLayout where
  frames : BitmapPlace
  heap : UInt32
  entries : BitmapPlace
  pages : ℕ
  loaded : 0x100000 ≤ frames.addr.toNat
  frames_heap : frames.stop ≤ heap.toNat
  heap_entries : heap.toNat + sizeofHeap ≤ entries.addr.toNat
  entries_stop : entries.stop ≤ pages * 0x1000
  one_table : pages + 2 ≤ 1024
  enough : pages + 2 ≤ frames.count

namespace KernelLayout

variable (L : KernelLayout)

def directory : UInt32 := pageAddr L.pages

def table : UInt32 := pageAddr (L.pages + 1)

/-- The pages from the first MiB to the table. -/
def Own (i : ℕ) : Prop := 0x100 ≤ i ∧ i < L.pages + 2

instance (i : ℕ) : Decidable (L.Own i) := inferInstanceAs (Decidable (_ ∧ _))

/-- The order of the things, in numbers. -/
theorem order : 0x100000 ≤ L.frames.addr.toNat ∧ L.frames.addr.toNat + 8 ≤ L.frames.entries.toNat ∧
    L.frames.entries.toNat + 4 * L.frames.count = L.frames.stop ∧ L.frames.stop ≤ L.heap.toNat ∧
    L.heap.toNat + 13 ≤ L.entries.addr.toNat ∧ L.entries.addr.toNat + 8 ≤ L.entries.entries.toNat ∧
    L.entries.entries.toNat + 4 * L.entries.count = L.entries.stop ∧
    L.entries.stop ≤ L.pages * 0x1000 ∧ L.pages + 2 ≤ 1024 ∧ L.pages + 2 ≤ L.frames.count :=
  ⟨L.loaded, L.frames.header, rfl, L.frames_heap, L.heap_entries, L.entries.header, rfl, L.entries_stop,
    L.one_table, L.enough⟩

theorem directory_toNat : L.directory.toNat = L.pages * 0x1000 := by
  have h := L.one_table
  exact pageAddr_toNat (by omega)

theorem table_toNat : L.table.toNat = (L.pages + 1) * 0x1000 := by
  have h := L.one_table
  exact pageAddr_toNat (by omega)

theorem directory_aligned : PageAligned L.directory := by
  have h := L.one_table
  exact pageAddr_aligned (by omega)

theorem table_aligned : PageAligned L.table := by
  have h := L.one_table
  exact pageAddr_aligned (by omega)

theorem table_ne_directory : L.table ≠ L.directory := by
  intro he
  have h := congrArg UInt32.toNat he
  rw [L.table_toNat, L.directory_toNat] at h
  omega

theorem heap_toNat : (L.heap + 4).toNat = L.heap.toNat + 4 ∧ (L.heap + 9).toNat = L.heap.toNat + 9 := by
  have h := L.order
  exact ⟨toNat_add_of_lt (by simp only [UInt32.reduceToNat]; omega),
    toNat_add_of_lt (by simp only [UInt32.reduceToNat]; omega)⟩

theorem own_directory : L.Own L.pages := by
  have h := L.order
  exact ⟨by omega, by omega⟩

theorem own_table : L.Own (L.pages + 1) := by
  have h := L.order
  exact ⟨by omega, by omega⟩

end KernelLayout

/-! ### The one table -/

section

variable {L : KernelLayout} {m : Machine}

/-- The word of page `i` in the table. -/
def Machine.word (L : KernelLayout) (m : Machine) (i : ℕ) : UInt32 :=
  pageWord m.mem L.table (UInt32.ofNat i)

/-- The directory has one table, in which the memory code's pages are mapped to themselves; their frames
are taken.  The pages below the first MiB, which `heap_free` may unmap, have other frames than these. -/
structure OneTable (L : KernelLayout) (m : Machine) : Prop where
  cr3_eq : m.cr3 = L.directory
  size_eq : m.frameBitmap.size.toNat = L.frames.count
  entry : pageWord m.mem L.directory 0 = L.table ||| 3
  one : ∀ e : UInt32, 0 < e.toNat → e.toNat < 1024 → ¬ Present (pageWord m.mem L.directory e)
  own : ∀ i, L.Own i → m.word L i = pageAddr i ||| 3
  mapped : ∀ i < 1024, Present (m.word L i) → ∃ f, phyGet (m.word L i) = pageAddr f ∧
    f < L.frames.count + 1024 ∧ (i < 0x100 → f < L.frames.count ∧ ¬ L.Own f)
  used : ∀ i, L.Own i → m.frameBitmap.words (UInt32.ofNat i) ≠ 0

theorem ofNat_tlbGet {i : ℕ} (hi : i < 1024) : tlbGet (pageAddr i) = UInt32.ofNat i := by
  apply eq_of_toNat
  rw [tlbGet_pageAddr (by omega), toNat_ofNat_of_lt (by omega), Nat.mod_eq_of_lt hi]

theorem dirGet_zero {i : ℕ} (hi : i < 1024) : dirGet (pageAddr i) = 0 := by
  apply eq_of_toNat
  rw [dirGet_pageAddr (by omega), UInt32.toNat_zero, Nat.div_eq_of_lt hi]

variable (h : OneTable L m)

include h

theorem OneTable.table_eq : phyGet (pageWord m.mem L.directory 0) = L.table := by
  rw [h.entry, phyGet_three L.table_aligned]

theorem OneTable.present : Present (pageWord m.mem L.directory 0) := by
  rw [h.entry]
  exact present_or_three _

theorem OneTable.dirWf : DirWf m.mem L.directory := by
  have hzero : ∀ e : UInt32, e.toNat < 1024 → Present (pageWord m.mem L.directory e) → e = 0 := by
    intro e he hp
    by_contra hne
    exact h.one e (toNat_pos hne) he hp
  refine ⟨L.directory_aligned, fun e he hp => ?_, fun e e' he he' hp hp' _ => ?_⟩
  · rw [hzero e he hp, h.table_eq]
    exact L.table_ne_directory
  · rw [hzero e he hp, hzero e' he' hp']

/-- What the table makes of a page. -/
theorem OneTable.translate {i : ℕ} (hi : i < 1024) : translate m (pageAddr i) =
    if Present (m.word L i) then some (phyGet (m.word L i)) else none := by
  rw [translate_eq, translateIn, h.cr3_eq, dirGet_zero hi, h.table_eq, ofNat_tlbGet hi]
  simp only [h.present, true_and]
  rfl

/-- No other page is mapped. -/
theorem OneTable.translate_far {i : ℕ} (hlo : 1024 ≤ i) (hi : i < 2 ^ 20) :
    CometOS.translate m (pageAddr i) = none := by
  have hd := dirGet_pageAddr hi
  rw [translate_eq, translateIn, h.cr3_eq, if_neg]
  exact fun hc => h.one _ (by omega) (dirGet_lt _) hc.1

theorem OneTable.identity {i : ℕ} (hi : L.Own i) :
    CometOS.translate m (pageAddr i) = some (pageAddr i) := by
  have hlt : i < 1024 := lt_of_lt_of_le hi.2 L.one_table
  rw [h.translate hlt, h.own i hi, if_pos (present_or_three _), phyGet_three (pageAddr_aligned (by omega))]

/-- The word that a page is mapped by. -/
theorem OneTable.pteAddr {i : ℕ} (hi : i < 1024) :
    pteAddr m.mem m.cr3 (pageAddr i) = L.table + 4 * UInt32.ofNat i := by
  show phyGet (pageWord m.mem m.cr3 (dirGet (pageAddr i))) + 4 * tlbGet (pageAddr i) = _
  rw [h.cr3_eq, dirGet_zero hi, h.table_eq, ofNat_tlbGet hi]

theorem OneTable.pde_present {i : ℕ} (hi : i < 1024) :
    Present (read32 m.mem (pdeAddr m.cr3 (pageAddr i))) := by
  have hp := h.present
  rwa [← h.cr3_eq, ← dirGet_zero hi] at hp

/-- **Another word for a page** that is none of the memory code's. -/
theorem OneTable.write {i : ℕ} (hi : i < 1024) (hown : ¬ L.Own i) (w : UInt32)
    (hw : Present w → ∃ f, phyGet w = pageAddr f ∧ f < L.frames.count + 1024 ∧
      (i < 0x100 → f < L.frames.count ∧ ¬ L.Own f)) :
    OneTable L { m with mem := write32 m.mem (CometOS.pteAddr m.mem m.cr3 (pageAddr i)) w } ∧
      ∀ j < 1024, Machine.word L { m with
        mem := write32 m.mem (CometOS.pteAddr m.mem m.cr3 (pageAddr i)) w } j =
          if j = i then w else m.word L j := by
  have hin : (UInt32.ofNat i).toNat = i := toNat_ofNat_of_lt (by omega)
  rw [h.pteAddr hi]
  have hdir : ∀ e : UInt32, e.toNat < 1024 →
      pageWord (write32 m.mem (L.table + 4 * UInt32.ofNat i) w) L.directory e =
        pageWord m.mem L.directory e := by
    intro e he
    rw [pageWord_write m.mem w L.directory_aligned L.table_aligned he (by omega),
      if_neg fun hc => L.table_ne_directory hc.1.symm]
  have hword : ∀ j < 1024, Machine.word L { m with
      mem := write32 m.mem (L.table + 4 * UInt32.ofNat i) w } j = if j = i then w else m.word L j := by
    intro j hj
    have hjn : (UInt32.ofNat j).toNat = j := toNat_ofNat_of_lt (by omega)
    have hji : UInt32.ofNat j = UInt32.ofNat i ↔ j = i := by
      rw [← UInt32.toNat_inj, hin, hjn]
    rw [Machine.word, pageWord_write m.mem w L.table_aligned L.table_aligned (by omega) (by omega)]
    simp only [true_and, hji]
    rfl
  refine ⟨⟨h.cr3_eq, h.size_eq, ?_, fun e he0 he => ?_, fun j hj => ?_, fun j hj hp => ?_, h.used⟩, hword⟩
  · exact (hdir 0 (by decide)).trans h.entry
  · exact (hdir e he).symm ▸ h.one e he0 he
  · have hlt : j < 1024 := lt_of_lt_of_le hj.2 L.one_table
    rw [hword j hlt, if_neg (by rintro rfl; exact hown hj), h.own j hj]
  · rw [hword j hj] at hp ⊢
    split
    · rename_i hji
      rw [if_pos hji] at hp
      rw [hji]
      exact hw hp
    · rename_i hji
      rw [if_neg hji] at hp
      exact h.mapped j hj hp

/-- Another frame bitmap. -/
theorem OneTable.withFrames {b : Bitmap} (hsize : b.size = m.frameBitmap.size)
    (hused : ∀ i, L.Own i → b.words (UInt32.ofNat i) ≠ 0) : OneTable L (m.withFrames b) :=
  ⟨h.cr3_eq, by rw [← h.size_eq, ← hsize]; rfl, h.entry, h.one, h.own, h.mapped, hused⟩

end

/-! ### The computer -/

/-- The computer has the machine's bitmaps and tables in memory, and its own things mapped to themselves.
Of the machine's memory only the directory and the table are looked at. -/
structure KernelAt (L : KernelLayout) (c : Computer) (m : Machine) (heap : Heap) : Prop where
  frames : BitmapAt L.frames c.mem m.frameBitmap
  kernelPointer_eq : m.kernelPointer = c.kernelPointer
  frameBitmap_eq : c.frameBitmap = L.frames.addr
  on : c.pagingState ≠ 0
  cr3_eq : c.cr3 = L.directory
  words : ∀ base, base = L.directory ∨ base = L.table → ∀ i : UInt32, i.toNat < 1024 →
    pageWord c.mem base i = pageWord m.mem base i
  kernelHeap_eq : c.kernelHeap = L.heap
  heap_eq : m.kernelHeap = some heap
  heapAt : HeapAt L.heap L.entries c.mem heap
  start_aligned : PageAligned heap.start
  tables : OneTable L m

section

variable {L : KernelLayout} {c : Computer} {m : Machine} {heap : Heap}

theorem KernelLayout.tables_aligned {base : UInt32} (hb : base = L.directory ∨ base = L.table) :
    PageAligned base := by
  rcases hb with rfl | rfl
  · exact L.directory_aligned
  · exact L.table_aligned

theorem KernelLayout.frames_outside {base : UInt32} (hb : base = L.directory ∨ base = L.table) :
    L.frames.Outside base 0x1000 := by
  have h := L.order
  have hd := L.directory_toNat
  have ht := L.table_toNat
  unfold BitmapPlace.Outside
  rcases hb with rfl | rfl <;> omega

theorem KernelLayout.entries_outside {base : UInt32} (hb : base = L.directory ∨ base = L.table) :
    L.entries.Outside base 0x1000 := by
  have h := L.order
  have hd := L.directory_toNat
  have ht := L.table_toNat
  unfold BitmapPlace.Outside
  rcases hb with rfl | rfl <;> omega

variable (h : KernelAt L c m heap)

include h

/-- **Both make the same of an address.** -/
theorem KernelAt.translate (v : UInt32) : c.translate v = CometOS.translate m v := by
  have hcr3 : c.cr3 = m.cr3 := h.cr3_eq.trans h.tables.cr3_eq.symm
  rw [Computer.translate, hcr3, translate_eq]
  refine translateIn_congr ?_ fun hp => ?_
  · rw [h.tables.cr3_eq]
    exact h.words _ (Or.inl rfl) _ (dirGet_lt v)
  · have hd0 : dirGet v = 0 := by
      by_contra hne
      rw [h.tables.cr3_eq] at hp
      exact h.tables.one _ (toNat_pos hne) (dirGet_lt v) hp
    rw [h.tables.cr3_eq, hd0, h.tables.table_eq]
    exact h.words _ (Or.inr rfl) _ (tlbGet_lt v)

theorem KernelAt.identity {i : ℕ} (hi : L.Own i) : c.translate (pageAddr i) = some (pageAddr i) := by
  rw [h.translate, h.tables.identity hi]

/-- **The memory code's own bytes** are found at their own addresses. -/
theorem KernelAt.direct {a : UInt32} {n : ℕ} (hlo : 0x100000 ≤ a.toNat)
    (hhi : a.toNat + n ≤ (L.pages + 2) * 0x1000) : Direct c.walk a n := by
  have hL := L.one_table
  exact Computer.direct_of_identity h.on (by omega) fun k hk hkn =>
    h.identity ⟨by omega, by omega⟩

theorem KernelAt.present_zero {e : UInt32} (he : e.toNat < 1024)
    (hp : Present (pageWord c.mem c.cr3 e)) : phyGet (pageWord c.mem c.cr3 e) = L.table := by
  rw [h.cr3_eq, h.words _ (Or.inl rfl) e he] at hp ⊢
  have he0 : e = 0 := by
    by_contra hne
    exact h.tables.one e (toNat_pos hne) he hp
  rw [he0, h.tables.table_eq]

theorem KernelAt.frames_seen : L.frames.Seen c := by
  have hL := L.order
  refine L.frames.seen_of_identity h.on ?_ ?_ (fun e he hp => ?_) fun k hlo hhi => h.identity ⟨?_, ?_⟩
  · rw [h.cr3_eq]
    exact L.directory_aligned
  · rw [h.cr3_eq]
    exact KernelLayout.frames_outside (Or.inl rfl)
  · rw [h.present_zero he hp]
    exact KernelLayout.frames_outside (Or.inr rfl)
  · omega
  · omega

theorem KernelAt.entries_seen : L.entries.Seen c := by
  have hL := L.order
  refine L.entries.seen_of_identity h.on ?_ ?_ (fun e he hp => ?_) fun k hlo hhi => h.identity ⟨?_, ?_⟩
  · rw [h.cr3_eq]
    exact L.directory_aligned
  · rw [h.cr3_eq]
    exact KernelLayout.entries_outside (Or.inl rfl)
  · rw [h.present_zero he hp]
    exact KernelLayout.entries_outside (Or.inr rfl)
  · omega
  · omega

/-- The `heap_t` as the calls read it. -/
theorem KernelAt.load_heap : c.load32 c.kernelHeap = some heap.start ∧
    c.load32 (c.kernelHeap + 4) = some heap.stop ∧
    c.load32 (c.kernelHeap + 9) = some L.entries.addr := by
  have hL := L.order
  obtain ⟨h4, h9⟩ := L.heap_toNat
  rw [h.kernelHeap_eq]
  refine ⟨?_, ?_, ?_⟩
  · rw [Computer.load32_of_direct (h.direct (by omega) (by omega)), h.heapAt.start_eq]
  · rw [Computer.load32_of_direct (h.direct (by omega) (by omega)), h.heapAt.stop_eq]
  · rw [Computer.load32_of_direct (h.direct (by omega) (by omega)), h.heapAt.bitmap_eq]

theorem KernelAt.heap_ne_zero : c.kernelHeap ≠ 0 := by
  have hL := L.order
  rw [h.kernelHeap_eq]
  intro h0
  rw [h0, UInt32.toNat_zero] at hL
  omega

/-- A word of the directory or the table. -/
theorem KernelAt.load_word {base i : UInt32} (hb : base = L.directory ∨ base = L.table)
    (hi : i.toNat < 1024) : c.load32 (base + 4 * i) = some (pageWord m.mem base i) := by
  have hd := L.directory_toNat
  have ht := L.table_toNat
  have hL := L.order
  have hal := KernelLayout.tables_aligned hb
  have haddr := entry_toNat hal hi
  have hbase : L.pages * 0x1000 ≤ base.toNat ∧ base.toNat ≤ (L.pages + 1) * 0x1000 := by
    rcases hb with rfl | rfl <;> omega
  rw [Computer.load32_of_direct (h.direct (by omega) (by omega)), ← h.words base hb i hi]
  rfl

/-- The frames' and the heap's entries, as far as they are theirs. -/
theorem KernelAt.frameTest {f : ℕ} (hf : f < L.frames.count) (hf20 : f < 2 ^ 20) :
    c.frameTest (pageAddr f) = some (m.frameBitmap.words (UInt32.ofNat f)) := by
  have hdiv : pageAddr f / 0x1000 = UInt32.ofNat f := by
    apply eq_of_toNat
    rw [pageAddr_div hf20, toNat_ofNat_of_lt (by omega)]
  rw [Computer.frameTest, h.frameBitmap_eq, hdiv]
  exact h.frames.check h.frames_seen (by rw [toNat_ofNat_of_lt (by omega)]; exact hf)

/-! ### Changes -/

omit h in
theorem HeapAt.congr {mem mem' : Mem} (h : HeapAt L.heap L.entries mem heap)
    (hmem : ∀ a : UInt32, L.heap.toNat ≤ a.toNat → a.toNat < L.entries.stop → mem' a = mem a) :
    HeapAt L.heap L.entries mem' heap := by
  have hL := L.order
  obtain ⟨h4, h9⟩ := L.heap_toNat
  have hread : ∀ a : UInt32, L.heap.toNat ≤ a.toNat → a.toNat + 4 ≤ L.heap.toNat + 13 →
      read32 mem' a = read32 mem a := by
    intro a hlo hhi
    refine read32_congr fun i hi => ?_
    have hai : (a + i).toNat = a.toNat + i.toNat := toNat_add_of_lt (by omega)
    exact hmem _ (by omega) (by omega)
  refine ⟨?_, ?_, ?_, h.bitmap.congr fun a ha => hmem a ?_ ?_⟩
  · rw [hread _ le_rfl (by omega), h.start_eq]
  · rw [hread _ (by omega) (by omega), h.stop_eq]
  · rw [hread _ (by omega) (by omega), h.bitmap_eq]
  · unfold BitmapPlace.Within at ha
    omega
  · unfold BitmapPlace.Within at ha
    omega

/-- Frames marked or freed. -/
theorem KernelAt.changeFrames {c' : Computer} {b : Bitmap} (hchange : L.frames.Changes c c')
    (hat : BitmapAt L.frames c'.mem b) (hsize : b.size = m.frameBitmap.size)
    (hused : ∀ i, L.Own i → b.words (UInt32.ofNat i) ≠ 0) : KernelAt L c' (m.withFrames b) heap := by
  have hL := L.order
  obtain ⟨mem, rfl, hmem⟩ := hchange
  refine ⟨hat, h.kernelPointer_eq, h.frameBitmap_eq, h.on, h.cr3_eq, fun base hb i hi => ?_,
    h.kernelHeap_eq, h.heap_eq, h.heapAt.congr fun a hlo hhi => hmem a ?_, h.start_aligned, h.tables.withFrames hsize hused⟩
  · have hal := KernelLayout.tables_aligned hb
    rw [(KernelLayout.frames_outside hb).pageWord_eq hmem hal hi]
    exact h.words base hb i hi
  · unfold BitmapPlace.Outside
    omega

/-- A page's word written. -/
theorem KernelAt.changeWord {i : ℕ} (hi : i < 1024) (hown : ¬ L.Own i) (w : UInt32)
    (hw : Present w → ∃ f, phyGet w = pageAddr f ∧ f < L.frames.count + 1024 ∧
      (i < 0x100 → f < L.frames.count ∧ ¬ L.Own f)) :
    KernelAt L { c with mem := write32 c.mem (L.table + 4 * UInt32.ofNat i) w }
      { m with mem := write32 m.mem (CometOS.pteAddr m.mem m.cr3 (pageAddr i)) w } heap := by
  have hL := L.order
  have hin : (UInt32.ofNat i).toNat = i := toNat_ofNat_of_lt (by omega)
  have hword := entry_toNat L.table_aligned (i := UInt32.ofNat i) (by omega)
  have ht := L.table_toNat
  have hfar : ∀ a : UInt32, a.toNat < L.pages * 0x1000 →
      write32 c.mem (L.table + 4 * UInt32.ofNat i) w a = c.mem a := fun a ha =>
    write32_of_far _ _ _ (far_of_outside (by omega) (by omega))
  refine ⟨h.frames.congr fun a ha => hfar a ?_, h.kernelPointer_eq, h.frameBitmap_eq, h.on, h.cr3_eq,
    fun base hb j hj => ?_, h.kernelHeap_eq, h.heap_eq, h.heapAt.congr fun a hlo hhi => hfar a (by omega), h.start_aligned,
    (h.tables.write hi hown w hw).1⟩
  · unfold BitmapPlace.Within at ha
    omega
  · have hal := KernelLayout.tables_aligned hb
    rw [h.tables.pteAddr hi, pageWord_write c.mem w hal L.table_aligned hj (by omega),
      pageWord_write m.mem w hal L.table_aligned hj (by omega), h.words base hb j hj]

/-- Bytes written behind the table. -/
theorem KernelAt.changeAbove {mem : Mem}
    (hmem : ∀ a : UInt32, a.toNat < (L.pages + 2) * 0x1000 → mem a = c.mem a) :
    KernelAt L { c with mem } m heap := by
  have hL := L.order
  have hd := L.directory_toNat
  have ht := L.table_toNat
  refine ⟨h.frames.congr fun a ha => hmem a ?_, h.kernelPointer_eq, h.frameBitmap_eq, h.on, h.cr3_eq,
    fun base hb i hi => ?_, h.kernelHeap_eq, h.heap_eq, h.heapAt.congr fun a hlo hhi => hmem a (by omega),
    h.start_aligned, h.tables⟩
  · unfold BitmapPlace.Within at ha
    omega
  · rw [← h.words base hb i hi]
    have haddr := entry_toNat (KernelLayout.tables_aligned hb) hi
    have hbase : base.toNat ≤ (L.pages + 1) * 0x1000 := by
      rcases hb with rfl | rfl <;> omega
    refine read32_congr fun j hj => hmem _ ?_
    rw [toNat_add_of_lt (by omega)]
    omega

/-- Entries of the heap marked or cleared. -/
theorem KernelAt.changeEntries {mem : Mem} {b : Bitmap} (hat : BitmapAt L.entries mem b)
    (hmem : ∀ a : UInt32, a.toNat < L.entries.entries.toNat ∨ L.entries.stop ≤ a.toNat →
      mem a = c.mem a) :
    KernelAt L { c with mem } { m with kernelHeap := some { heap with bitmap := b } }
      { heap with bitmap := b } := by
  have hL := L.order
  obtain ⟨h4, h9⟩ := L.heap_toNat
  have hread : ∀ a : UInt32, L.heap.toNat ≤ a.toNat → a.toNat + 4 ≤ L.heap.toNat + 13 →
      read32 mem a = read32 c.mem a := by
    intro a hlo hhi
    refine read32_congr fun i hi => hmem _ (Or.inl ?_)
    have hai : (a + i).toNat = a.toNat + i.toNat := toNat_add_of_lt (by omega)
    omega
  refine ⟨h.frames.congr fun a ha => hmem a ?_, h.kernelPointer_eq, h.frameBitmap_eq, h.on, h.cr3_eq,
    fun base hb i hi => ?_, h.kernelHeap_eq, rfl, ⟨?_, ?_, ?_, hat⟩, h.start_aligned, ?_⟩
  · unfold BitmapPlace.Within at ha
    omega
  · have hal := KernelLayout.tables_aligned hb
    rw [(KernelLayout.entries_outside hb).pageWord_eq (fun a ha => hmem a ha.beyond) hal hi]
    exact h.words base hb i hi
  · rw [hread _ le_rfl (by omega)]
    exact h.heapAt.start_eq
  · rw [hread _ (by omega) (by omega)]
    exact h.heapAt.stop_eq
  · rw [hread _ (by omega) (by omega)]
    exact h.heapAt.bitmap_eq
  · exact ⟨h.tables.cr3_eq, h.tables.size_eq, h.tables.entry, h.tables.one, h.tables.own, h.tables.mapped,
      h.tables.used⟩

end

end CometOS
