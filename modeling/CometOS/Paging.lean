import CometOS.BootAlloc

/-!
# Frames and page tables (`kernel/arch/i386/mem/paging.c`)

`Machine` holds the globals of the memory code.  The page directory and the page tables live in
`mem`; a pointer to one is its physical address, which is what the identity mapping made at boot
provides.  The two bitmaps and the heap are objects of their own, as the functions are given them; the
`Computer` has them in memory, and does what the machine does while they lie apart.  `none` is a call
that does not return.
-/

namespace CometOS

open ByteMemory Loop Word32

structure Machine where
  kernelPointer : UInt32
  frameBitmap : Bitmap
  kernelHeap : Option Heap
  pagingState : UInt32
  cr3 : UInt32
  mem : Mem

def frameSet (addr : UInt32) (m : Machine) : Machine :=
  { m with frameBitmap := bitmapEntrieSet (addr / 0x1000) 1 m.frameBitmap }

def frameFree (addr : UInt32) (m : Machine) : Machine :=
  { m with frameBitmap := bitmapEntrieSet (addr / 0x1000) 0 m.frameBitmap }

def frameTest (addr : UInt32) (m : Machine) : UInt32 :=
  bitmapEntrieCheck (addr / 0x1000) m.frameBitmap

def frameFind (m : Machine) : Option UInt32 :=
  (bitmapEntrieFind 1 0 m.frameBitmap).map fun index => index * 0x1000

/-- The failed search is compared for as `0xffffffff`, after its `-1` has been scaled. -/
def frameAlloc (m : Machine) : Option (UInt32 × Machine) :=
  (frameFind m).map fun frame => if frame = 0xFFFFFFFF then (0, m) else (frame, frameSet frame m)

/-- The 1024 words of a table or directory, each made from its index and what it held. -/
def fillTable (table : UInt32) (entry : UInt32 → UInt32 → UInt32) (mem : Mem) : Mem :=
  forUp (fun i mem => write32 mem (table + 4 * UInt32.ofNat i)
    (entry (UInt32.ofNat i) (read32 mem (table + 4 * UInt32.ofNat i)))) 0 1024 mem

/-- What `table_create` writes to a new table.  At boot the table maps the lowest 4 MiB to
themselves.  Later it is cleared, with `table + 0x1000` words on for a length. -/
def tableFill (table flags : UInt32) (m : Machine) : Machine :=
  if m.pagingState = 0 then
    { m with mem := fillTable table (fun i _ => i * 0x1000 ||| 3) m.mem }
  else
    let mem := fill m.mem table 0 (table + 0x4000).toNat
    { m with mem := if flags ≠ 0 then fillTable table (fun _ old => old ||| flags) mem else mem }

def tableCreate (flags : UInt32) (m : Machine) : Option (UInt32 × Machine) :=
  (frameAlloc m).map fun x => if x.1 = 0 then (0, x.2) else (x.1, tableFill x.1 flags x.2)

def tableMap (directory pdindex tableAddr flags : UInt32) (m : Machine) : Machine :=
  { m with mem := write32 m.mem (directory + 4 * pdindex) (tableAddr ||| flags) }

def directoryCreate (flags : UInt32) (m : Machine) : Option (UInt32 × Machine) :=
  (frameAlloc m).map fun x =>
    if x.1 = 0 then (0, x.2)
    else (x.1, { x.2 with mem := fillTable x.1 (fun _ _ => flags) x.2.mem })

def directoryLoad (addr : UInt32) (m : Machine) : Machine := { m with cr3 := addr }

/-- `DIR_GET`. -/
def dirGet (addr : UInt32) : UInt32 := addr >>> 22 &&& 0x3FF

/-- `TLB_GET`. -/
def tlbGet (addr : UInt32) : UInt32 := addr >>> 12 &&& 0x3FF

/-- `PHY_GET`. -/
def phyGet (entry : UInt32) : UInt32 := entry &&& 0xFFFFF000

/-- The entry's `USED` bit. -/
def Present (entry : UInt32) : Prop := entry &&& 1 = 1

instance (entry : UInt32) : Decidable (Present entry) := inferInstanceAs (Decidable (_ = _))

/-- The address of the directory entry for `v`. -/
def pdeAddr (pd v : UInt32) : UInt32 := pd + 4 * dirGet v

/-- The address of the table entry for `v`, in the table that the directory entry names. -/
def pteAddr (mem : Mem) (pd v : UInt32) : UInt32 :=
  phyGet (read32 mem (pdeAddr pd v)) + 4 * tlbGet v

def pageDirectory (pageDir : UInt32) (m : Machine) : UInt32 :=
  if pageDir ≠ 0 then pageDir else m.cr3

/-- The part of `page_map` that makes a table where there is none. -/
def pageMapTable (virtualaddr pd : UInt32) (m : Machine) : Option Machine :=
  if ¬ Present (read32 m.mem (pdeAddr pd virtualaddr)) then
    (tableCreate 3 m).map fun x => tableMap pd (dirGet virtualaddr) x.1 3 x.2
  else some m

def pageMap (physaddr virtualaddr flags pageDir : UInt32) (m : Machine) :
    Option (UInt32 × Machine) :=
  if virtualaddr &&& 0xFFF ≠ 0 ∨ physaddr &&& 0xFFF ≠ 0 then some (0, m)
  else
    let pd := pageDirectory pageDir m
    (pageMapTable virtualaddr pd m).map fun m =>
      (virtualaddr, { m with
        mem := write32 m.mem (pteAddr m.mem pd virtualaddr) (physaddr ||| flags ||| 1) })

/-- `page_unmap`, whose result no caller uses. -/
def pageUnmap (virtualaddr pageDir : UInt32) (m : Machine) : Machine :=
  let pd := pageDirectory pageDir m
  if virtualaddr &&& 0xFFF ≠ 0 then m
  else if ¬ Present (read32 m.mem (pdeAddr pd virtualaddr)) then m
  else { m with
    mem := write32 m.mem (pteAddr m.mem pd virtualaddr)
      (read32 m.mem (pteAddr m.mem pd virtualaddr) &&& 0) }

def pagePhysaddr (virtualaddr pageDir : UInt32) (m : Machine) : UInt32 :=
  let pd := pageDirectory pageDir m
  if virtualaddr &&& 0xFFF ≠ 0 then 0
  else if ¬ Present (read32 m.mem (pdeAddr pd virtualaddr)) then 0
  else if ¬ Present (read32 m.mem (pteAddr m.mem pd virtualaddr)) then 0
  else phyGet (read32 m.mem (pteAddr m.mem pd virtualaddr)) + (virtualaddr &&& 0xFFF)

/-! ### The translation -/

/-- What the page tables make of the page at `v`: the frame behind it, if there is one. -/
def translate (m : Machine) (v : UInt32) : Option UInt32 :=
  if Present (read32 m.mem (pdeAddr m.cr3 v)) ∧ Present (read32 m.mem (pteAddr m.mem m.cr3 v)) then
    some (phyGet (read32 m.mem (pteAddr m.mem m.cr3 v)))
  else none

/-- The address of a page. -/
def PageAligned (a : UInt32) : Prop := a &&& 0xFFF = 0

instance (a : UInt32) : Decidable (PageAligned a) := inferInstanceAs (Decidable (_ = _))

theorem pageAligned_iff (a : UInt32) : PageAligned a ↔ a.toNat % 0x1000 = 0 := by
  have h := toNat_and_low a 12 (by decide)
  unfold PageAligned
  rw [← UInt32.toNat_inj]
  exact iff_of_eq (congrArg (· = 0) h)

theorem PageAligned.add {a b : UInt32} (ha : PageAligned a) (hb : PageAligned b) :
    PageAligned (a + b) := by
  rw [pageAligned_iff] at *
  rw [UInt32.toNat_add]
  omega

theorem PageAligned.sub {a b : UInt32} (ha : PageAligned a) (hb : PageAligned b) :
    PageAligned (a - b) := by
  have := b.toNat_lt
  rw [pageAligned_iff] at *
  rw [UInt32.toNat_sub]
  omega

theorem pageAligned_mul (i : UInt32) : PageAligned (i * 0x1000) := by
  rw [pageAligned_iff, UInt32.toNat_mul]
  simp only [UInt32.reduceToNat]
  omega

theorem pageAligned_and (a : UInt32) : PageAligned (a &&& 0xFFFFF000) := by
  rw [pageAligned_iff, toNat_and_page]
  omega

theorem pageAligned_phyGet (a : UInt32) : PageAligned (phyGet a) := pageAligned_and a

/-- `page_physaddr` of a page is its translation in the directory, and null where there is none. -/
theorem pagePhysaddr_eq {v : UInt32} (m : Machine) (pageDir : UInt32) (h : PageAligned v) :
    pagePhysaddr v pageDir m = (translate { m with cr3 := pageDirectory pageDir m } v).getD 0 := by
  have hv : v &&& 0xFFF = 0 := h
  unfold pagePhysaddr translate
  simp only [hv, ne_eq, not_true_eq_false, if_false, UInt32.add_zero]
  by_cases h₁ : Present (read32 m.mem (pdeAddr (pageDirectory pageDir m) v))
  · by_cases h₂ : Present (read32 m.mem (pteAddr m.mem (pageDirectory pageDir m) v))
    · simp [h₁, h₂]
    · simp [h₁, h₂]
  · simp [h₁]

/-! ### Words of the tables -/

theorem dirGet_toNat (v : UInt32) : (dirGet v).toNat = v.toNat / 2 ^ 22 := by
  have h := toNat_shiftRight_and v 22 10 (by decide) (by decide)
  have hv := v.toNat_lt
  have : (dirGet v).toNat = v.toNat / 2 ^ 22 % 2 ^ 10 := h
  omega

theorem tlbGet_toNat (v : UInt32) : (tlbGet v).toNat = v.toNat / 2 ^ 12 % 2 ^ 10 :=
  toNat_shiftRight_and v 12 10 (by decide) (by decide)

/-- An entry's place in its page. -/
theorem entry_toNat {base i : UInt32} (hb : PageAligned base) (hi : i.toNat < 1024) :
    (base + 4 * i).toNat = base.toNat + 4 * i.toNat := by
  rw [pageAligned_iff] at hb
  have := base.toNat_lt
  have h4 : (4 * i).toNat = 4 * i.toNat := toNat_mul_of_lt (by simp only [UInt32.reduceToNat]; omega)
  rw [toNat_add_of_lt (by rw [h4]; omega), h4]

theorem pdeAddr_toNat {pd v : UInt32} (h : PageAligned pd) :
    (pdeAddr pd v).toNat = pd.toNat + 4 * (v.toNat / 2 ^ 22) := by
  have hv := v.toNat_lt
  rw [pdeAddr, entry_toNat h (by rw [dirGet_toNat]; omega), dirGet_toNat]

theorem pteAddr_toNat (mem : Mem) (pd v : UInt32) :
    (pteAddr mem pd v).toNat =
      (phyGet (read32 mem (pdeAddr pd v))).toNat + 4 * (v.toNat / 2 ^ 12 % 2 ^ 10) := by
  have hv := v.toNat_lt
  rw [pteAddr, entry_toNat (pageAligned_phyGet _) (by rw [tlbGet_toNat]; omega), tlbGet_toNat]

theorem pdeAddr_aligned {pd : UInt32} (h : PageAligned pd) (v : UInt32) :
    (pdeAddr pd v).toNat % 4 = 0 := by
  rw [pdeAddr_toNat h]
  rw [pageAligned_iff] at h
  omega

theorem pteAddr_aligned (mem : Mem) (pd v : UInt32) : (pteAddr mem pd v).toNat % 4 = 0 := by
  have h := pageAligned_phyGet (read32 mem (pdeAddr pd v))
  rw [pageAligned_iff] at h
  rw [pteAddr_toNat]
  omega

/-! ### What the page and frame functions leave alone -/

/-- What neither mapping nor unmapping pages changes. -/
structure Keeps (m m' : Machine) : Prop where
  kernelPointer_eq : m'.kernelPointer = m.kernelPointer
  kernelHeap_eq : m'.kernelHeap = m.kernelHeap
  pagingState_eq : m'.pagingState = m.pagingState
  cr3_eq : m'.cr3 = m.cr3
  size_eq : m'.frameBitmap.size = m.frameBitmap.size

theorem Keeps.refl (m : Machine) : Keeps m m := ⟨rfl, rfl, rfl, rfl, rfl⟩

theorem Keeps.trans {m₁ m₂ m₃ : Machine} (h : Keeps m₁ m₂) (h' : Keeps m₂ m₃) : Keeps m₁ m₃ :=
  ⟨h'.kernelPointer_eq.trans h.kernelPointer_eq, h'.kernelHeap_eq.trans h.kernelHeap_eq,
    h'.pagingState_eq.trans h.pagingState_eq, h'.cr3_eq.trans h.cr3_eq, h'.size_eq.trans h.size_eq⟩

theorem Keeps.size_ne {m m' : Machine} (h : Keeps m m') (hs : m.frameBitmap.size ≠ 0xFFFFFFFF) :
    m'.frameBitmap.size ≠ 0xFFFFFFFF := by
  rw [h.size_eq]
  exact hs

/-- What mapping pages may do to the machine: frames are taken, none is given back, and the tables'
memory changes. -/
structure Maps (m m' : Machine) : Prop extends Keeps m m' where
  used : ∀ i, m.frameBitmap.words i ≠ 0 → m'.frameBitmap.words i ≠ 0

theorem Maps.refl (m : Machine) : Maps m m := ⟨Keeps.refl m, fun _ h => h⟩

theorem Maps.trans {m₁ m₂ m₃ : Machine} (h : Maps m₁ m₂) (h' : Maps m₂ m₃) : Maps m₁ m₃ :=
  ⟨h.toKeeps.trans h'.toKeeps, fun i hi => h'.used i (h.used i hi)⟩

theorem maps_mem (m : Machine) (mem : Mem) : Maps m { m with mem } :=
  ⟨⟨rfl, rfl, rfl, rfl, rfl⟩, fun _ h => h⟩

theorem frameSet_maps (addr : UInt32) (m : Machine) : Maps m (frameSet addr m) := by
  refine ⟨⟨rfl, rfl, rfl, rfl, rfl⟩, fun i hi => ?_⟩
  show (if i = addr / 0x1000 then 1 else m.frameBitmap.words i) ≠ 0
  split
  · decide
  · exact hi

theorem frameFree_keeps (addr : UInt32) (m : Machine) : Keeps m (frameFree addr m) :=
  ⟨rfl, rfl, rfl, rfl, rfl⟩

theorem pageUnmap_keeps (v pageDir : UInt32) (m : Machine) : Keeps m (pageUnmap v pageDir m) := by
  unfold pageUnmap
  simp only
  split
  · exact Keeps.refl m
  · split
    · exact Keeps.refl m
    · exact ⟨rfl, rfl, rfl, rfl, rfl⟩

/-- **What `frame_alloc` returns**: a page whose entry was free and now is not, or, from a full
bitmap, the last page there is. -/
theorem frameAlloc_spec {m m' : Machine} {frame : UInt32} (h : frameAlloc m = some (frame, m')) :
    ∃ i, FindResult m.frameBitmap 0 1 i ∧ frame = i * 0x1000 ∧ m' = frameSet frame m := by
  unfold frameAlloc frameFind at h
  rw [Option.map_map, Option.map_eq_some_iff] at h
  obtain ⟨i, hfind, heq⟩ := h
  refine ⟨i, bitmapEntrieFind_spec hfind, ?_⟩
  have hne : i * 0x1000 ≠ 0xFFFFFFFF := by
    intro he
    have := pageAligned_mul i
    rw [he] at this
    exact absurd this (by decide)
  rw [Function.comp_apply, if_neg hne] at heq
  obtain ⟨rfl, rfl⟩ := Prod.mk.inj heq
  exact ⟨rfl, rfl⟩

theorem frameAlloc_total (m : Machine) (h : m.frameBitmap.size ≠ 0xFFFFFFFF) :
    ∃ frame m', frameAlloc m = some (frame, m') := by
  obtain ⟨i, hi⟩ := bitmapEntrieFind_total 1 0 m.frameBitmap h
  rw [frameAlloc, frameFind, hi]
  exact ⟨_, _, rfl⟩

theorem frameAlloc_maps {m m' : Machine} {frame : UInt32} (h : frameAlloc m = some (frame, m')) :
    Maps m m' ∧ PageAligned frame := by
  obtain ⟨i, -, rfl, rfl⟩ := frameAlloc_spec h
  exact ⟨frameSet_maps _ m, pageAligned_mul i⟩

theorem tableFill_maps (table flags : UInt32) (m : Machine) : Maps m (tableFill table flags m) := by
  unfold tableFill
  split
  · exact maps_mem m _
  · exact maps_mem m _

theorem tableCreate_maps {m m' : Machine} {flags table : UInt32}
    (h : tableCreate flags m = some (table, m')) : Maps m m' := by
  unfold tableCreate at h
  rw [Option.map_eq_some_iff] at h
  obtain ⟨⟨frame, m₁⟩, hf, heq⟩ := h
  have h₁ := (frameAlloc_maps hf).1
  simp only at heq
  split at heq
  · obtain ⟨-, rfl⟩ := Prod.mk.inj heq
    exact h₁
  · obtain ⟨-, rfl⟩ := Prod.mk.inj heq
    exact h₁.trans (tableFill_maps frame flags m₁)

theorem tableCreate_total (flags : UInt32) (m : Machine) (h : m.frameBitmap.size ≠ 0xFFFFFFFF) :
    ∃ x, tableCreate flags m = some x := by
  obtain ⟨frame, m', hf⟩ := frameAlloc_total m h
  rw [tableCreate, hf]
  exact ⟨_, rfl⟩

theorem pageMapTable_maps {m m' : Machine} {v pd : UInt32} (h : pageMapTable v pd m = some m') :
    Maps m m' := by
  unfold pageMapTable at h
  split at h
  · rw [Option.map_eq_some_iff] at h
    obtain ⟨⟨table, m₁⟩, ht, rfl⟩ := h
    exact (tableCreate_maps ht).trans (maps_mem m₁ _)
  · cases h
    exact Maps.refl m

theorem pageMapTable_total (v pd : UInt32) (m : Machine) (h : m.frameBitmap.size ≠ 0xFFFFFFFF) :
    ∃ m', pageMapTable v pd m = some m' := by
  unfold pageMapTable
  split
  · obtain ⟨x, hx⟩ := tableCreate_total 3 m h
    rw [hx]
    exact ⟨_, rfl⟩
  · exact ⟨m, rfl⟩

theorem pageMap_eq {physaddr v : UInt32} (flags : UInt32) (m : Machine) (hp : PageAligned physaddr)
    (hv : PageAligned v) :
    pageMap physaddr v flags 0 m = (pageMapTable v m.cr3 m).map fun m₁ =>
      (v, { m₁ with
        mem := write32 m₁.mem (pteAddr m₁.mem m.cr3 v) (physaddr ||| flags ||| 1) }) := by
  have hcond : ¬ (v &&& 0xFFF ≠ 0 ∨ physaddr &&& 0xFFF ≠ 0) := by
    rintro (h | h)
    · exact h hv
    · exact h hp
  rw [pageMap, if_neg hcond]
  rfl

/-- **Mapping a frame at a page** returns the page's address. -/
theorem pageMap_spec {m : Machine} {physaddr v : UInt32} (flags : UInt32) (hp : PageAligned physaddr)
    (hv : PageAligned v) (hsize : m.frameBitmap.size ≠ 0xFFFFFFFF) :
    ∃ m', pageMap physaddr v flags 0 m = some (v, m') ∧ Maps m m' := by
  obtain ⟨m₁, hm₁⟩ := pageMapTable_total v m.cr3 m hsize
  rw [pageMap_eq flags m hp hv, hm₁]
  exact ⟨_, rfl, (pageMapTable_maps hm₁).trans (maps_mem m₁ _)⟩

/-! ### What mapping does to the translation -/

theorem present_or (a b : UInt32) : Present (a ||| b ||| 1) := by
  unfold Present
  apply eq_of_toNat
  rw [show (1 : UInt32) = UInt32.ofNat (2 ^ 1 - 1) from rfl, toNat_and_low _ 1 (by decide)]
  rw [UInt32.toNat_or, show (UInt32.ofNat (2 ^ 1 - 1)).toNat = 1 from rfl]
  have h := Nat.testBit_or (a ||| b).toNat 1 0
  rw [Nat.testBit_zero, show (1 : ℕ).testBit 0 = true from rfl, Bool.or_true, decide_eq_true_iff] at h
  exact h

theorem phyGet_or_flags {f : UInt32} (h : PageAligned f) : phyGet (f ||| 3 ||| 1) = f := by
  have h3 : f ||| 3 ||| 1 = f ||| 3 := by
    rw [UInt32.or_assoc]
    rfl
  rw [h3]
  apply eq_of_toNat
  rw [pageAligned_iff] at h
  have hor : (f ||| 3).toNat = f.toNat + (3 : UInt32).toNat := toNat_or_low 12 h (by decide)
  rw [show (phyGet (f ||| 3)).toNat = (f ||| 3).toNat / 0x1000 * 0x1000 from toNat_and_page _, hor]
  simp only [UInt32.reduceToNat]
  omega

/-- What `page_map` writes, with the flags of the heap, where there is a table. -/
def mapWord (v f : UInt32) (m : Machine) : Machine :=
  { m with mem := write32 m.mem (pteAddr m.mem m.cr3 v) (f ||| 3 ||| 1) }

theorem pageMap_present {m : Machine} {v f : UInt32} (hf : PageAligned f) (hv : PageAligned v)
    (hp : Present (read32 m.mem (pdeAddr m.cr3 v))) :
    pageMap f v 3 0 m = some (v, mapWord v f m) := by
  rw [pageMap_eq 3 m hf hv, pageMapTable, if_neg (not_not.2 hp), Option.map_some]
  rfl

end CometOS
