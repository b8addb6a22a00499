import CometOS.ComputerBitmap
import CometOS.PagingTables

/-!
# Frames and pages in memory

`FrameSim p c m` relates the computer to a `Machine` whose frame bitmap is what the words at `p` hold, and
whose memory is the same everywhere else.  As long as the frames that are taken and freed have their words
at `p`, and the directory and the tables lie elsewhere, each call on the computer follows the call on the
machine.
-/

namespace CometOS

open ByteMemory Loop Paged Word32

/-! ### Loads and stores at their own addresses -/

section

variable {c : Computer} {a : UInt32}

theorem Computer.walk_off (h : c.pagingState = 0) (a : UInt32) : c.walk a = some a := if_pos h

theorem Computer.direct_off (h : c.pagingState = 0) (a : UInt32) (n : ℕ) : Direct c.walk a n :=
  fun i _ => c.walk_off h (a + i)

theorem BitmapPlace.seen_off (p : BitmapPlace) (h : c.pagingState = 0) : p.Seen c :=
  fun mem _ => Computer.direct_off (c := { c with mem }) h _ _

theorem Computer.load32_of_direct (h : Direct c.walk a 4) : c.load32 a = some (read32 c.mem a) :=
  load32_direct c.mem h

theorem Computer.store32_of_direct (h : Direct c.walk a 4) (v : UInt32) :
    c.store32 a v = some { c with mem := write32 c.mem a v } := by
  rw [Computer.store32, store32_direct _ _ h]
  rfl

end

/-- Nothing but memory has changed. -/
def Computer.MemOnly (c c' : Computer) : Prop := ∃ mem, c' = { c with mem }

theorem Computer.MemOnly.trans {c c₁ c₂ : Computer} (h : c.MemOnly c₁) (h' : c₁.MemOnly c₂) :
    c.MemOnly c₂ := by
  obtain ⟨mem, rfl⟩ := h
  obtain ⟨mem', rfl⟩ := h'
  exact ⟨mem', rfl⟩

theorem Computer.MemOnly.paging_off {c c' : Computer} (h : c.MemOnly c') (hoff : c.pagingState = 0) :
    c'.pagingState = 0 := by
  obtain ⟨mem, rfl⟩ := h
  exact hoff

/-- The computer and the machine, with the frame bitmap at `p`. -/
structure FrameSim (p : BitmapPlace) (c : Computer) (m : Machine) : Prop where
  kernelPointer_eq : m.kernelPointer = c.kernelPointer
  pagingState_eq : m.pagingState = c.pagingState
  cr3_eq : m.cr3 = c.cr3
  frameBitmap_eq : c.frameBitmap = p.addr
  bitmap : BitmapAt p c.mem m.frameBitmap
  mem_eq : ∀ a, p.Outside a 1 → m.mem a = c.mem a

/-- Nothing but the bitmap's own bytes has changed. -/
def BitmapPlace.Changes (p : BitmapPlace) (c c' : Computer) : Prop :=
  ∃ mem, c' = { c with mem } ∧ ∀ a, p.Outside a 1 → mem a = c.mem a

theorem BitmapPlace.Changes.refl (p : BitmapPlace) (c : Computer) : p.Changes c c :=
  ⟨c.mem, rfl, fun _ _ => rfl⟩

theorem BitmapPlace.Changes.trans {p : BitmapPlace} {c c₁ c₂ : Computer} (h : p.Changes c c₁)
    (h' : p.Changes c₁ c₂) : p.Changes c c₂ := by
  obtain ⟨mem, rfl, hmem⟩ := h
  obtain ⟨mem', rfl, hmem'⟩ := h'
  exact ⟨mem', rfl, fun a ha => (hmem' a ha).trans (hmem a ha)⟩

theorem BitmapPlace.Changes.memOnly {p : BitmapPlace} {c c' : Computer} (h : p.Changes c c') :
    c.MemOnly c' := by
  obtain ⟨mem, rfl, -⟩ := h
  exact ⟨mem, rfl⟩

theorem BitmapPlace.Changes.seen {p : BitmapPlace} {c c' : Computer} (h : p.Changes c c')
    (hseen : p.Seen c) : p.Seen c' := by
  obtain ⟨mem, rfl, hout⟩ := h
  exact hseen.congr hout

section

variable {p : BitmapPlace} {c : Computer} {m : Machine}

theorem BitmapPlace.Outside.byte {a i : UInt32} {n : ℕ} (h : p.Outside a n) (hi : i.toNat < n)
    (hw : a.toNat + n ≤ 2 ^ 32) : p.Outside (a + i) 1 := by
  have hai : (a + i).toNat = a.toNat + i.toNat := toNat_add_of_lt (by omega)
  exact h.part (by omega) (by omega)

theorem BitmapPlace.Outside.le {a : UInt32} {n : ℕ} (h : p.Outside a n) : a.toNat + n ≤ 2 ^ 32 := by
  have haddr := p.addr.toNat_lt
  have hentries := p.entries.toNat_lt
  unfold BitmapPlace.Outside at h
  omega

theorem FrameSim.read (h : FrameSim p c m) {a : UInt32} (ha : p.Outside a 4) :
    read32 m.mem a = read32 c.mem a :=
  read32_congr fun _ hi => h.mem_eq _ (ha.byte hi ha.le)

theorem FrameSim.load (h : FrameSim p c m) {a : UInt32} (ha : p.Outside a 4)
    (hd : Direct c.walk a 4) : c.load32 a = some (read32 m.mem a) := by
  rw [Computer.load32_of_direct hd, h.read ha]

/-- A store elsewhere. -/
theorem FrameSim.write (h : FrameSim p c m) {a : UInt32} (ha : p.Outside a 4) (v : UInt32) :
    FrameSim p { c with mem := write32 c.mem a v } { m with mem := write32 m.mem a v } := by
  refine ⟨h.kernelPointer_eq, h.pagingState_eq, h.cr3_eq, h.frameBitmap_eq,
    h.bitmap.write ha (by decide) fun x hx => write32_of_far c.mem a v hx, fun x hx => ?_⟩
  show write32 m.mem a v x = write32 c.mem a v x
  simp only [write32, h.mem_eq x hx]

/-- A change of the frame bitmap's own words. -/
theorem FrameSim.changes {c' : Computer} {b : Bitmap} (h : FrameSim p c m) {mem : Mem}
    (hc : c' = { c with mem }) (hout : ∀ a, p.Outside a 1 → mem a = c.mem a)
    (hat : BitmapAt p mem b) : FrameSim p c' { m with frameBitmap := b } := by
  subst hc
  exact ⟨h.kernelPointer_eq, h.pagingState_eq, h.cr3_eq, h.frameBitmap_eq, hat, fun a ha =>
    (h.mem_eq a ha).trans (hout a ha).symm⟩

variable (h : FrameSim p c m) (hseen : p.Seen c)

include h hseen

theorem FrameSim.setWord {i : UInt32} (hi : i.toNat < p.count) (v : UInt32) :
    ∃ c', c.bitmapEntrieSet i v c.frameBitmap = some c' ∧ p.Changes c c' ∧
      FrameSim p c' { m with frameBitmap := bitmapEntrieSet i v m.frameBitmap } := by
  have hout : ∀ x, p.Outside x 1 → write32 c.mem (p.entries + 4 * i) v x = c.mem x := fun x hx =>
    BitmapPlace.write_outside v (p.within_entry hi) hx
  refine ⟨{ c with mem := write32 c.mem (p.entries + 4 * i) v }, ?_, ⟨_, rfl, hout⟩,
    h.changes rfl hout (h.bitmap.set hi v)⟩
  have hstore := h.bitmap.store hseen hi v
  rwa [← h.frameBitmap_eq] at hstore

/-- `frame_set` and `frame_free` of a frame whose word is there. -/
theorem FrameSim.setFrame (addr : UInt32) (ha : (addr / 0x1000).toNat < p.count) :
    ∃ c', c.frameSet addr = some c' ∧ p.Changes c c' ∧ FrameSim p c' (frameSet addr m) :=
  h.setWord hseen ha 1

theorem FrameSim.freeFrame (addr : UInt32) (ha : (addr / 0x1000).toNat < p.count) :
    ∃ c', c.frameFree addr = some c' ∧ p.Changes c c' ∧ FrameSim p c' (frameFree addr m) :=
  h.setWord hseen ha 0

/-- **`frame_alloc`** where the first free frame has its word there. -/
theorem FrameSim.allocFrame {f : ℕ} (hf : f < 2 ^ 20) (hfp : f < p.count)
    (hused : ∀ i : UInt32, i.toNat < f → m.frameBitmap.words i ≠ 0)
    (hfree : m.frameBitmap.words (UInt32.ofNat f) = 0) :
    ∃ c', c.frameAlloc = some (pageAddr f, c') ∧ p.Changes c c' ∧
      FrameSim p c' (frameSet (pageAddr f) m) := by
  have hfn : (UInt32.ofNat f).toNat = f := toNat_ofNat_of_lt (by omega)
  have hcount := h.bitmap.count_eq
  have hone : max (1 : UInt32).toNat 1 = 1 := rfl
  have hfirst : FindResult m.frameBitmap 0 (max (1 : UInt32).toNat 1) (UInt32.ofNat f) := by
    rw [hone]
    refine FindResult.found _ (UInt32.le_iff_toNat_le.2 (by omega)) (runAt_one.2 hfree) fun j hj hrun => ?_
    rw [UInt32.lt_iff_toNat_lt, hfn] at hj
    exact hused j hj (runAt_one.1 hrun)
  have hfind := h.bitmap.find hseen (by rw [hone, hfn]; omega) hfirst
  obtain ⟨c', hc', hchange, hsim⟩ := h.setFrame hseen (pageAddr f) (by rw [pageAddr_div hf]; exact hfp)
  refine ⟨c', ?_, hchange, hsim⟩
  have hne : pageAddr f ≠ 0xFFFFFFFF := by
    intro he
    have hal := pageAddr_aligned hf
    rw [he] at hal
    exact absurd hal (by decide)
  rw [Computer.frameAlloc, Computer.frameFind, h.frameBitmap_eq, hfind, Option.map_some,
    Option.bind_some, ofNat_mul_page hf, if_neg hne, hc', Option.map_some]

end

/-! ### Before paging is on -/

section

variable {p : BitmapPlace} {c : Computer} {m : Machine}

/-- The page at `a` is none of the bitmap's. -/
theorem BitmapPlace.Outside.word {table i : UInt32} (h : p.Outside table 0x1000)
    (hi : i.toNat < 1024) (ht : PageAligned table) : p.Outside (table + 4 * i) 4 := by
  have hadd := CometOS.entry_toNat ht hi
  exact h.part (by omega) (by omega)

/-- Filling a table elsewhere. -/
theorem FrameSim.fill (h : FrameSim p c m) (hoff : c.pagingState = 0) {table : UInt32}
    (ht : PageAligned table) (hout : p.Outside table 0x1000) (entry : UInt32 → UInt32 → UInt32) :
    ∃ c', c.fillTable table entry = some c' ∧ c.MemOnly c' ∧
      FrameSim p c' { m with mem := fillTable table entry m.mem } := by
  obtain ⟨c', hc', hmem', hsim⟩ := forUpM_sim
    (fun (c' : Computer) mem => c.MemOnly c' ∧ FrameSim p c' { m with mem })
    (g := fun i c => (c.load32 (table + 4 * UInt32.ofNat i)).bind fun old =>
      c.store32 (table + 4 * UInt32.ofNat i) (entry (UInt32.ofNat i) old))
    (f := fun i mem => write32 mem (table + 4 * UInt32.ofNat i)
      (entry (UInt32.ofNat i) (read32 mem (table + 4 * UInt32.ofNat i)))) 1024 0 c m.mem
    ⟨⟨c.mem, rfl⟩, h⟩ (by
      rintro i c' mem - hi ⟨hmem', hsim⟩
      have hword : p.Outside (table + 4 * UInt32.ofNat i) 4 :=
        hout.word (by rw [toNat_ofNat_of_lt (by omega)]; omega) ht
      have hd := Computer.direct_off (hmem'.paging_off hoff) (table + 4 * UInt32.ofNat i) 4
      refine ⟨{ c' with mem := write32 c'.mem (table + 4 * UInt32.ofNat i) (entry (UInt32.ofNat i)
        (read32 mem (table + 4 * UInt32.ofNat i))) }, ?_, hmem'.trans ⟨_, rfl⟩, hsim.write hword _⟩
      rw [hsim.load hword hd, Option.bind_some, Computer.store32_of_direct hd])
  exact ⟨c', hc', hmem', hsim⟩

/-- A new table, in the first free frame. -/
theorem FrameSim.newTable (h : FrameSim p c m) (hoff : c.pagingState = 0) {f : ℕ} (hf0 : 0 < f)
    (hf : f < 2 ^ 20) (hfp : f < p.count)
    (hused : ∀ i : UInt32, i.toNat < f → m.frameBitmap.words i ≠ 0)
    (hfree : m.frameBitmap.words (UInt32.ofNat f) = 0) (hout : p.Outside (pageAddr f) 0x1000)
    (flags : UInt32) :
    ∃ c', c.tableCreate flags = some (pageAddr f, c') ∧ c.MemOnly c' ∧
      FrameSim p c' (tableFill (pageAddr f) flags (frameSet (pageAddr f) m)) := by
  obtain ⟨c₁, hc₁, hchange, hsim₁⟩ := h.allocFrame (p.seen_off hoff) hf hfp hused hfree
  have hoff₁ : c₁.pagingState = 0 := hchange.memOnly.paging_off hoff
  obtain ⟨c₂, hc₂, hmem₂, hsim₂⟩ := hsim₁.fill hoff₁ (pageAddr_aligned hf) hout
    fun i _ => i * 0x1000 ||| 3
  have hne : pageAddr f ≠ 0 := by
    intro he
    have h0 := congrArg UInt32.toNat he
    rw [pageAddr_toNat hf, UInt32.toNat_zero] at h0
    omega
  refine ⟨c₂, ?_, hchange.memOnly.trans hmem₂, ?_⟩
  · rw [Computer.tableCreate, hc₁, Option.bind_some, if_neg hne, Computer.tableFill, if_pos hoff₁, hc₂,
      Option.map_some]
  · rw [tableFill_off _ _ (show (frameSet (pageAddr f) m).pagingState = 0 from
      h.pagingState_eq.trans hoff)]
    exact hsim₂

/-- A new directory, in the first free frame. -/
theorem FrameSim.newDirectory (h : FrameSim p c m) (hoff : c.pagingState = 0) {f : ℕ} (hf0 : 0 < f)
    (hf : f < 2 ^ 20) (hfp : f < p.count)
    (hused : ∀ i : UInt32, i.toNat < f → m.frameBitmap.words i ≠ 0)
    (hfree : m.frameBitmap.words (UInt32.ofNat f) = 0) (hout : p.Outside (pageAddr f) 0x1000)
    (flags : UInt32) :
    ∃ c', c.directoryCreate flags = some (pageAddr f, c') ∧ c.MemOnly c' ∧
      FrameSim p c' { frameSet (pageAddr f) m with
        mem := fillTable (pageAddr f) (fun _ _ => flags) m.mem } := by
  obtain ⟨c₁, hc₁, hchange, hsim₁⟩ := h.allocFrame (p.seen_off hoff) hf hfp hused hfree
  have hoff₁ : c₁.pagingState = 0 := hchange.memOnly.paging_off hoff
  obtain ⟨c₂, hc₂, hmem₂, hsim₂⟩ := hsim₁.fill hoff₁ (pageAddr_aligned hf) hout fun _ _ => flags
  have hne : pageAddr f ≠ 0 := by
    intro he
    have h0 := congrArg UInt32.toNat he
    rw [pageAddr_toNat hf, UInt32.toNat_zero] at h0
    omega
  refine ⟨c₂, ?_, hchange.memOnly.trans hmem₂, hsim₂⟩
  rw [Computer.directoryCreate, hc₁, Option.bind_some, if_neg hne, hc₂, Option.map_some]

/-- A page behind the bitmap. -/
theorem BitmapPlace.outside_page {n : ℕ} (hn : n < 2 ^ 20) (hstop : p.stop ≤ n * 0x1000) :
    p.Outside (pageAddr n) 0x1000 := by
  unfold BitmapPlace.Outside
  rw [pageAddr_toNat hn]
  omega

end

/-! ### Mapping a page -/

section

variable {p : BitmapPlace} {c : Computer} {m : Machine} {v f : UInt32}

theorem BitmapPlace.Outside.pde {pd : UInt32} (h : p.Outside pd 0x1000) (hpd : PageAligned pd) :
    p.Outside (pdeAddr pd v) 4 := by
  rw [pdeAddr]
  exact h.word (dirGet_lt v) hpd

theorem BitmapPlace.Outside.pte {mem : Mem} {pd : UInt32}
    (h : p.Outside (phyGet (read32 mem (pdeAddr pd v))) 0x1000) : p.Outside (pteAddr mem pd v) 4 := by
  rw [pteAddr]
  exact h.word (tlbGet_lt v) (pageAligned_phyGet _)

/-- Writing the word of a page whose table is there. -/
theorem FrameSim.storeWord (h : FrameSim p c m) {pd : UInt32} (word : UInt32)
    (hpd : p.Outside (pdeAddr pd v) 4) (hdpd : Direct c.walk (pdeAddr pd v) 4)
    (hpt : p.Outside (pteAddr m.mem pd v) 4) (hdpt : Direct c.walk (pteAddr m.mem pd v) 4) :
    c.tableWord v pd = some (pteAddr m.mem pd v) ∧
      c.store32 (pteAddr m.mem pd v) word =
        some { c with mem := write32 c.mem (pteAddr m.mem pd v) word } ∧
      FrameSim p { c with mem := write32 c.mem (pteAddr m.mem pd v) word }
        { m with mem := write32 m.mem (pteAddr m.mem pd v) word } := by
  refine ⟨?_, Computer.store32_of_direct hdpt word, h.write hpt word⟩
  rw [Computer.tableWord, h.load hpd hdpd, Option.map_some]
  rfl

/-- **`page_map`** of a page whose table is there. -/
theorem FrameSim.mapThere (h : FrameSim p c m) (hf : PageAligned f) (hv : PageAligned v)
    (hp : Present (read32 m.mem (pdeAddr m.cr3 v)))
    (hpd : p.Outside (pdeAddr m.cr3 v) 4) (hdpd : Direct c.walk (pdeAddr m.cr3 v) 4)
    (hpt : p.Outside (pteAddr m.mem m.cr3 v) 4) (hdpt : Direct c.walk (pteAddr m.mem m.cr3 v) 4) :
    ∃ c', c.pageMap f v 3 0 = some (v, c') ∧
      c' = { c with mem := write32 c.mem (pteAddr m.mem m.cr3 v) (f ||| 3 ||| 1) } ∧
      FrameSim p c' (mapWord v f m) := by
  obtain ⟨hword, hstore, hsim⟩ := h.storeWord (f ||| 3 ||| 1) hpd hdpd hpt hdpt
  have hcond : ¬ (v &&& 0xFFF ≠ 0 ∨ f &&& 0xFFF ≠ 0) := by
    rintro (hc | hc)
    · exact hc hv
    · exact hc hf
  have hdir : c.directoryOf 0 = m.cr3 := h.cr3_eq.symm
  refine ⟨_, ?_, rfl, hsim⟩
  rw [Computer.pageMap, if_neg hcond, hdir, Computer.pageMapTable, h.load hpd hdpd, Option.bind_some,
    if_neg (not_not.2 hp), Option.bind_some, hword, Option.bind_some, hstore, Option.map_some]

/-- `page_map` of the first page of a region while paging is off: the next frame becomes its table. -/
theorem FrameSim.mapNew {n k t : ℕ} (h : FrameSim p c m) (hoff : c.pagingState = 0)
    (htab : TablesAt n p.count k m) (hk : k < n) (hroom : n + 1 + regions n ≤ 2 ^ 20)
    (hsize : n + 1 + regions n ≤ p.count) (hmod : k % 1024 = 0) (ht : t = n + 1 + regions k)
    (hstop : p.stop ≤ n * 0x1000) :
    ∃ c', c.pageMap (pageAddr k) (pageAddr k) 3 0 = some (pageAddr k, c') ∧ c.MemOnly c' ∧
      FrameSim p c' { frameSet (pageAddr t) m with
        mem := write32 (newTableMem n t k m.mem)
          (pteAddr (newTableMem n t k m.mem) (pageAddr n) (pageAddr k)) (pageAddr k ||| 3 ||| 1) } := by
  have hreg : regions k = k / 1024 ∧ regions k + 1 ≤ regions n := by
    simp only [regions]
    omega
  have hkn : k < 2 ^ 20 := by omega
  have hn : n < 2 ^ 20 := by omega
  have htn : t < 2 ^ 20 := by omega
  have hts : p.stop ≤ t * 0x1000 := hstop.trans (Nat.mul_le_mul_right _ (by omega))
  have hal := pageAddr_aligned hkn
  have hpd : p.Outside (pdeAddr (pageAddr n) (pageAddr k)) 4 :=
    (p.outside_page hn hstop).pde (pageAddr_aligned hn)
  have hpres : ¬ Present (read32 m.mem (pdeAddr (pageAddr n) (pageAddr k))) := by
    have hword := htab.dir _ (dirGet_lt (pageAddr k))
    rw [dirGet_pageAddr hkn, if_neg (by omega)] at hword
    rw [show read32 m.mem (pdeAddr (pageAddr n) (pageAddr k)) = 2 from hword]
    decide
  obtain ⟨c₁, hc₁, hc₁m, hsim₁⟩ := h.newTable hoff (f := t) (by omega) htn (by omega)
    (fun i hi h0 => by have := (htab.frames i (by omega)).1 h0; omega)
    ((htab.frames _ (by rw [toNat_ofNat_of_lt (by omega)]; omega)).2
      (by rw [toNat_ofNat_of_lt (by omega)]; omega))
    (p.outside_page htn hts) 3
  have hoff₁ := hc₁m.paging_off hoff
  obtain ⟨m₁, hm₁⟩ : ∃ m₁, frameSet (pageAddr t) m = m₁ := ⟨_, rfl⟩
  have hoffm : m₁.pagingState = 0 := by
    rw [← hm₁]
    exact htab.paging_off
  have hmem₁ : m₁.mem = m.mem := by
    rw [← hm₁]
    rfl
  obtain ⟨mem₁, hfill⟩ : ∃ mem₁, fillTable (pageAddr t) (fun i _ => i * 0x1000 ||| 3) m.mem = mem₁ :=
    ⟨_, rfl⟩
  rw [hm₁, tableFill_off _ _ hoffm, hmem₁, hfill] at hsim₁
  obtain ⟨c₂, hc₂⟩ : ∃ c₂ : Computer, c₂ = { c₁ with
    mem := write32 c₁.mem (pdeAddr (pageAddr n) (pageAddr k)) (pageAddr t ||| 3) } := ⟨_, rfl⟩
  obtain ⟨mem₂, hmem₂⟩ : ∃ mem₂, newTableMem n t k m.mem = mem₂ := ⟨_, rfl⟩
  have hmap : c₁.tableMap (pageAddr n) (dirGet (pageAddr k)) (pageAddr t) 3 = some c₂ := by
    rw [Computer.tableMap, ← pdeAddr, Computer.store32_of_direct (Computer.direct_off hoff₁ _ _), hc₂]
  have hoff₂ : c₂.pagingState = 0 := by rw [hc₂, hoff₁]
  have hsim₂ : FrameSim p c₂ { m₁ with mem := mem₂ } := by
    rw [hc₂, ← hmem₂, newTableMem, ← pdeAddr, hfill]
    exact hsim₁.write hpd (pageAddr t ||| 3)
  have hdir : c.directoryOf 0 = pageAddr n := by
    rw [← htab.cr3_eq, h.cr3_eq]
    rfl
  have hpte := newTableMem_pte hn htn hkn m.mem
  rw [hmem₂] at hpte
  rw [hm₁, hmem₂]
  have hpt : p.Outside (pteAddr mem₂ (pageAddr n) (pageAddr k)) 4 := by
    rw [hpte]
    exact (p.outside_page htn hts).word (tlbGet_lt _) (pageAddr_aligned htn)
  obtain ⟨hword, hstore, hsim₃⟩ := hsim₂.storeWord (pageAddr k ||| 3 ||| 1) hpd
    (Computer.direct_off hoff₂ _ _) hpt (Computer.direct_off hoff₂ _ _)
  have hcond : ¬ (pageAddr k &&& 0xFFF ≠ 0 ∨ pageAddr k &&& 0xFFF ≠ 0) := by
    rintro (hc | hc)
    · exact hc hal
    · exact hc hal
  refine ⟨{ c₂ with
    mem := write32 c₂.mem (pteAddr mem₂ (pageAddr n) (pageAddr k)) (pageAddr k ||| 3 ||| 1) }, ?_,
    hc₁m.trans ⟨_, by rw [hc₂]⟩, hsim₃⟩
  rw [Computer.pageMap, if_neg hcond, hdir, Computer.pageMapTable,
    h.load hpd (Computer.direct_off hoff _ _), Option.bind_some, if_pos hpres, hc₁, Option.bind_some, hmap,
    Option.bind_some, hword, Option.bind_some, hstore, Option.map_some]

/-- A turn of the loop of `paging_initialize` over the pages. -/
theorem FrameSim.mapTurn {n k : ℕ} (h : FrameSim p c m) (hoff : c.pagingState = 0)
    (htab : TablesAt n p.count k m) (hk : k < n) (hroom : n + 1 + regions n ≤ 2 ^ 20)
    (hsize : n + 1 + regions n ≤ p.count) (hstop : p.stop ≤ n * 0x1000) :
    ∃ c' m', c.pageMap (pageAddr k) (pageAddr k) 3 0 = some (pageAddr k, c') ∧ c.MemOnly c' ∧
      FrameSim p c' m' ∧ TablesAt n p.count (k + 1) m' ∧
      ∀ a : UInt32, a.toNat < n * 0x1000 → m'.mem a = m.mem a := by
  have hkn : k < 2 ^ 20 := by omega
  have hal := pageAddr_aligned hkn
  have hne : m.frameBitmap.size ≠ 0xFFFFFFFF := by
    intro he
    have hcount := h.bitmap.count_eq
    have hw := p.words
    rw [he, show (0xFFFFFFFF : UInt32).toNat = 2 ^ 32 - 1 from rfl] at hcount
    omega
  by_cases hmod : k % 1024 = 0
  · obtain ⟨m', hm', htab'⟩ := htab.step_new hk hroom hsize hne hmod
    rw [htab.pageMap_new hk hroom hsize hne hmod rfl] at hm'
    obtain ⟨-, rfl⟩ := Prod.mk.inj (Option.some.inj hm')
    obtain ⟨c', hc', hmem', hsim⟩ := h.mapNew hoff htab hk hroom hsize hmod rfl hstop
    have hreg : regions k + 1 ≤ regions n := by
      simp only [regions]
      omega
    exact ⟨c', _, hc', hmem', hsim, htab', fun a ha =>
      newTableMem_below (by omega) (by omega) hkn (by omega) m.mem _ ha⟩
  · obtain ⟨m', hm', htab'⟩ := htab.step_there hk hroom hmod
    have hreg : k / 1024 < regions k ∧ regions k ≤ regions n := by
      simp only [regions]
      omega
    have hn : n < 2 ^ 20 := by omega
    have htn : n + 1 + k / 1024 < 2 ^ 20 := by omega
    have hts : p.stop ≤ (n + 1 + k / 1024) * 0x1000 :=
      hstop.trans (Nat.mul_le_mul_right _ (by omega))
    have hword := htab.dir _ (dirGet_lt (pageAddr k))
    rw [dirGet_pageAddr hkn, if_pos hreg.1] at hword
    have hpde : read32 m.mem (pdeAddr m.cr3 (pageAddr k)) = pageAddr (n + 1 + k / 1024) ||| 3 := by
      rw [htab.cr3_eq]
      exact hword
    have hp : Present (read32 m.mem (pdeAddr m.cr3 (pageAddr k))) := by
      rw [hpde]
      exact present_or_three _
    rw [pageMap_present hal hal hp] at hm'
    obtain ⟨-, rfl⟩ := Prod.mk.inj (Option.some.inj hm')
    obtain ⟨c', hc', hceq, hsim⟩ := h.mapThere hal hal hp
      (by
        rw [htab.cr3_eq]
        exact (p.outside_page hn hstop).pde (pageAddr_aligned hn))
      (Computer.direct_off hoff _ _)
      (by
        refine BitmapPlace.Outside.pte ?_
        rw [hpde, phyGet_three (pageAddr_aligned htn)]
        exact p.outside_page htn hts)
      (Computer.direct_off hoff _ _)
    refine ⟨c', _, hc', ⟨_, hceq⟩, hsim, htab', fun a ha => ?_⟩
    have hpte : (pteAddr m.mem m.cr3 (pageAddr k)).toNat =
        (n + 1 + k / 1024) * 0x1000 + 4 * (k % 1024) := by
      rw [pteAddr, entry_toNat (pageAligned_phyGet _) (tlbGet_lt _), hpde,
        phyGet_three (pageAddr_aligned htn), pageAddr_toNat htn, tlbGet_pageAddr hkn]
    exact write32_of_far _ _ _ (far_of_outside (by omega) (by omega))

/-- A word of a page that is none of the bitmap's does not depend on the bitmap. -/
theorem BitmapPlace.Outside.pageWord_eq {mem mem' : Mem} {base i : UInt32} (hout : p.Outside base 0x1000)
    (hmem : ∀ a, p.Outside a 1 → mem a = mem' a) (hb : PageAligned base) (hi : i.toNat < 1024) :
    pageWord mem base i = pageWord mem' base i := by
  have hword := hout.word hi hb
  exact read32_congr fun _ hj => hmem _ (hword.byte hj hword.le)

/-- Nor does what a directory makes of an address, if the directory and the table are none of its pages. -/
theorem BitmapPlace.translateIn_eq {mem mem' : Mem} {pd : UInt32} (hpd : PageAligned pd)
    (hmem : ∀ a, p.Outside a 1 → mem a = mem' a) (hdir : p.Outside pd 0x1000)
    (htable : Present (pageWord mem' pd (dirGet v)) →
      p.Outside (phyGet (pageWord mem' pd (dirGet v))) 0x1000) :
    translateIn mem pd v = translateIn mem' pd v :=
  translateIn_congr (hdir.pageWord_eq hmem hpd (dirGet_lt v)) fun hp =>
    (htable hp).pageWord_eq hmem (pageAligned_phyGet _) (tlbGet_lt v)

end

end CometOS
