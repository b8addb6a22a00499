import CometOS.Lib.Paged
import CometOS.PageWalk

/-!
# The memory code in one memory

`Machine` keeps the bitmaps and the `heap_t` as values of their own.  In the kernel they lie in the same
memory as everything else: `bitmap_create` reserves too little for its words, so that a store to one
structure can reach another, and with paging on an address means what the page tables make of it.  Here
`kernel/array.c`, `mem/heap.c` and `mem/paging.c` are once more translated, with nothing but the globals
and the bytes of memory.

Every load and store is looked up in the page tables as they are at that moment (`page_map` and
`page_unmap` flush what they have changed).  `none` is a call that does not return: an access to a page
that is not mapped, whose `page_fault` returns to it for ever, or a search that never ends.
-/

namespace CometOS

open ByteMemory Loop Word32

/-- The globals, of which `frame_bitmap` and `kernel_heap` are pointers, and memory.  `paging_state` is
set with the processor's own switch. -/
structure Computer where
  kernelPointer : UInt32
  frameBitmap : UInt32
  kernelHeap : UInt32
  pagingState : UInt32
  cr3 : UInt32
  mem : Mem

namespace Computer

/-! ### Memory -/

/-- Where the byte at an address is. -/
def walk (c : Computer) (a : UInt32) : Option UInt32 :=
  if c.pagingState = 0 then some a else cpuWalk c.mem c.cr3 a

/-- What the page tables make of the page at `v`. -/
def translate (c : Computer) (v : UInt32) : Option UInt32 := translateIn c.mem c.cr3 v

def load8 (a : UInt32) (c : Computer) : Option UInt8 := Paged.load8 c.walk c.mem a

def store8 (a : UInt32) (b : UInt8) (c : Computer) : Option Computer :=
  (Paged.store8 c.walk a b c.mem).map fun mem => { c with mem }

def load32 (a : UInt32) (c : Computer) : Option UInt32 := Paged.load32 c.walk c.mem a

def store32 (a v : UInt32) (c : Computer) : Option Computer :=
  (Paged.store32 c.walk a v c.mem).map fun mem => { c with mem }

/-! ### Bitmaps (`kernel/kernel/array.c`): `entries`, then `size` -/

def bitmapEntrieSet (index value bitmap : UInt32) (c : Computer) : Option Computer :=
  (c.load32 bitmap).bind fun entries => c.store32 (entries + 4 * index) value

def bitmapEntrieCheck (index bitmap : UInt32) (c : Computer) : Option UInt32 :=
  (c.load32 bitmap).bind fun entries => c.load32 (entries + 4 * index)

/-- The inner loop of `bitmap_entrie_find`, from `x` on: whether it returns `i`. -/
def bitmapRunFrom (size value i bitmap : UInt32) (c : Computer) : ℕ → UInt32 → Option Bool
  | 0, _ => none
  | fuel + 1, x =>
    (c.bitmapEntrieCheck (i + x) bitmap).bind fun entrie =>
      if entrie = value then
        if x + 1 ≥ size then some true else bitmapRunFrom size value i bitmap c fuel (x + 1)
      else some false

/-- The outer loop, from `i` on. -/
def bitmapFindFrom (size value bitmap : UInt32) (c : Computer) : ℕ → UInt32 → Option UInt32
  | 0, _ => none
  | fuel + 1, i =>
    (c.load32 (bitmap + 4)).bind fun count =>
      if i ≤ count then
        (c.bitmapRunFrom size value i bitmap (2 ^ 32) 0).bind fun found =>
          if found then some i else bitmapFindFrom size value bitmap c fuel (i + 1)
      else some (-1)

def bitmapEntrieFind (size value bitmap : UInt32) (c : Computer) : Option UInt32 :=
  c.bitmapFindFrom size value bitmap (2 ^ 32) 0

def bitmapMap (start stop value bitmap : UInt32) (c : Computer) : Option Computer :=
  (c.load32 (bitmap + 4)).bind fun count =>
    if stop > count then some c
    else forUpM (fun i c => c.bitmapEntrieSet (UInt32.ofNat i) value bitmap) start.toNat
      (stop.toNat - start.toNat) c

/-! ### What the boot allocator makes -/

/-- `ponter_move_int` with a null `physaddr`. -/
def ponterMoveInt (size align : UInt32) (c : Computer) : UInt32 × Computer :=
  let p := CometOS.ponterMoveInt size align c.kernelPointer
  (p.1, { c with kernelPointer := p.2 })

/-- `bitmap_create`, whose `kmalloc` is `ponter_move_int` while paging is off. -/
def bitmapCreate (size : UInt32) (c : Computer) : Option (UInt32 × Computer) :=
  let bitmap := c.ponterMoveInt sizeofBitmap 1
  (bitmap.2.store32 (bitmap.1 + 4) size).bind fun c =>
    let entries := c.ponterMoveInt (size / 0x20) 1
    (entries.2.store32 bitmap.1 entries.1).bind fun c =>
      (c.bitmapMap 0 size 0 bitmap.1).map fun c => (bitmap.1, c)

/-- A flag in the byte that the two bit fields of `heap_t` share. -/
def setFlag (flag : Bool) (bit byte : UInt8) : UInt8 :=
  if flag then byte ||| bit else byte &&& ~~~bit

/-- `heap_t` is packed: `start`, `end`, a byte with the flags, and `bitmap`. -/
def heapCreate (start stop : UInt32) (rw usermode : Bool) (c : Computer) :
    Option (UInt32 × Computer) :=
  let heap := c.ponterMoveInt sizeofHeapPointer 0
  let stop' := stop &&& 0xFFFFF000
  (heap.2.store32 heap.1 (start &&& 0xFFFFF000)).bind fun c =>
    (c.store32 (heap.1 + 4) (if stop' ≠ stop then stop' + 0x1000 else stop')).bind fun c =>
      (c.load8 (heap.1 + 8)).bind fun flags =>
        (c.store8 (heap.1 + 8) (setFlag usermode 2 (setFlag rw 1 flags))).bind fun c =>
          (c.bitmapCreate (pointerQuarter start stop)).bind fun bitmap =>
            (bitmap.2.store32 (heap.1 + 9) bitmap.1).map fun c => (heap.1, c)

/-! ### Frames and tables (`mem/paging.c`) -/

def frameSet (addr : UInt32) (c : Computer) : Option Computer :=
  c.bitmapEntrieSet (addr / 0x1000) 1 c.frameBitmap

def frameFree (addr : UInt32) (c : Computer) : Option Computer :=
  c.bitmapEntrieSet (addr / 0x1000) 0 c.frameBitmap

def frameTest (addr : UInt32) (c : Computer) : Option UInt32 :=
  c.bitmapEntrieCheck (addr / 0x1000) c.frameBitmap

def frameFind (c : Computer) : Option UInt32 :=
  (c.bitmapEntrieFind 1 0 c.frameBitmap).map fun index => index * 0x1000

def frameAlloc (c : Computer) : Option (UInt32 × Computer) :=
  c.frameFind.bind fun frame =>
    if frame = 0xFFFFFFFF then some (0, c) else (c.frameSet frame).map fun c => (frame, c)

/-- The 1024 words of a table or directory, each made from its index and what it held. -/
def fillTable (table : UInt32) (entry : UInt32 → UInt32 → UInt32) (c : Computer) : Option Computer :=
  forUpM (fun i c => (c.load32 (table + 4 * UInt32.ofNat i)).bind fun old =>
    c.store32 (table + 4 * UInt32.ofNat i) (entry (UInt32.ofNat i) old)) 0 1024 c

def memset (s : UInt32) (b : UInt8) (size : UInt32) (c : Computer) : Option Computer :=
  forUpM (fun i c => c.store8 (s + UInt32.ofNat i) b) 0 size.toNat c

/-- The length of the `memset` is a pointer: `table + 0x1000` words on. -/
def tableFill (table flags : UInt32) (c : Computer) : Option Computer :=
  if c.pagingState = 0 then c.fillTable table fun i _ => i * 0x1000 ||| 3
  else
    (c.memset table 0 (table + 0x4000)).bind fun c =>
      if flags ≠ 0 then c.fillTable table fun _ old => old ||| flags else some c

def tableCreate (flags : UInt32) (c : Computer) : Option (UInt32 × Computer) :=
  c.frameAlloc.bind fun table =>
    if table.1 = 0 then some (0, table.2)
    else (table.2.tableFill table.1 flags).map fun c => (table.1, c)

def tableMap (directory pdindex tableAddr flags : UInt32) (c : Computer) : Option Computer :=
  c.store32 (directory + 4 * pdindex) (tableAddr ||| flags)

def directoryCreate (flags : UInt32) (c : Computer) : Option (UInt32 × Computer) :=
  c.frameAlloc.bind fun directory =>
    if directory.1 = 0 then some (0, directory.2)
    else (directory.2.fillTable directory.1 fun _ _ => flags).map fun c => (directory.1, c)

def directoryLoad (addr : UInt32) (c : Computer) : Computer := { c with cr3 := addr }

/-- The directory a function works on: its argument, or `directory_get()`. -/
def directoryOf (pageDir : UInt32) (c : Computer) : UInt32 := if pageDir ≠ 0 then pageDir else c.cr3

/-- The part of `page_map` that makes a table where there is none. -/
def pageMapTable (virtualaddr pd : UInt32) (c : Computer) : Option Computer :=
  (c.load32 (pdeAddr pd virtualaddr)).bind fun entry =>
    if ¬ Present entry then
      (c.tableCreate 3).bind fun table => table.2.tableMap pd (dirGet virtualaddr) table.1 3
    else some c

/-- The place of a page's word in its table, `&pt[ptindex]`. -/
def tableWord (virtualaddr pd : UInt32) (c : Computer) : Option UInt32 :=
  (c.load32 (pdeAddr pd virtualaddr)).map fun entry => phyGet entry + 4 * tlbGet virtualaddr

def pageMap (physaddr virtualaddr flags pageDir : UInt32) (c : Computer) :
    Option (UInt32 × Computer) :=
  if virtualaddr &&& 0xFFF ≠ 0 ∨ physaddr &&& 0xFFF ≠ 0 then some (0, c)
  else
    (c.pageMapTable virtualaddr (c.directoryOf pageDir)).bind fun c' =>
      (c'.tableWord virtualaddr (c.directoryOf pageDir)).bind fun place =>
        (c'.store32 place (physaddr ||| flags ||| 1)).map fun c' => (virtualaddr, c')

/-- `page_unmap`, whose result no caller uses. -/
def pageUnmap (virtualaddr pageDir : UInt32) (c : Computer) : Option Computer :=
  if virtualaddr &&& 0xFFF ≠ 0 then some c
  else
    (c.load32 (pdeAddr (c.directoryOf pageDir) virtualaddr)).bind fun entry =>
      if ¬ Present entry then some c
      else
        (c.load32 (phyGet entry + 4 * tlbGet virtualaddr)).bind fun word =>
          c.store32 (phyGet entry + 4 * tlbGet virtualaddr) (word &&& 0)

def pagePhysaddr (virtualaddr pageDir : UInt32) (c : Computer) : Option UInt32 :=
  if virtualaddr &&& 0xFFF ≠ 0 then some 0
  else
    (c.load32 (pdeAddr (c.directoryOf pageDir) virtualaddr)).bind fun entry =>
      if ¬ Present entry then some 0
      else
        (c.load32 (phyGet entry + 4 * tlbGet virtualaddr)).map fun word =>
          if ¬ Present word then 0 else phyGet word + (virtualaddr &&& 0xFFF)

/-! ### The kernel heap (`mem/heap.c`) -/

/-- What both loops do to a page they unmap: its frame is freed, it is unmapped, and they go down a
page. -/
def unmapTurn (x : UInt32 × Computer) : Option (UInt32 × Computer) :=
  (x.2.pagePhysaddr x.1 0).bind fun frame =>
    (x.2.frameFree frame).bind fun c =>
      (c.pageUnmap x.1 0).map fun c => (x.1 - 0x1000, c)

/-- The way back out of a failed `heap_alloc`. -/
def heapUndo (addr i : UInt32) (c : Computer) : Option Computer :=
  (whileLoop (fun x => decide (x.1 > addr)) unmapTurn (2 ^ 32) (i - 0x1000, c)).map Prod.snd

/-- The mapping loop of `heap_alloc`, from `i` on. -/
def heapMapFrom (addr stop : UInt32) : ℕ → UInt32 → Computer → Option (UInt32 × Computer)
  | 0, _, _ => none
  | fuel + 1, i, c =>
    if i < stop then
      c.frameAlloc.bind fun frame =>
        (frame.2.pageMap frame.1 i 3 0).bind fun page =>
          if page.1 = 0 then (page.2.heapUndo addr i).map fun c => (0, c)
          else heapMapFrom addr stop fuel (i + 0x1000) page.2
    else some (addr, c)

def heapAlloc (size heap : UInt32) (c : Computer) : Option (UInt32 × Computer) :=
  if heap = 0 then some (0, c)
  else if size &&& 0xFFF ≠ 0 then some (0, c)
  else
    (c.load32 (heap + 9)).bind fun bitmap =>
      (c.bitmapEntrieFind (size / 0x1000) 0 bitmap).bind fun index =>
        (c.load32 heap).bind fun start =>
          let addr := start - index * 0x1000
          if addr = 0 ∨ addr > start then some (0, c)
          else
            (c.bitmapMap index (index + size / 0x1000) 1 bitmap).bind fun c =>
              heapMapFrom addr (addr + size) (2 ^ 32) addr c

/-- The loop of `heap_free`, which goes down from the block's first page. -/
def heapUnmap (addr stop : UInt32) (c : Computer) : Option Computer :=
  (whileLoop (fun x => decide (x.1 < stop)) unmapTurn (2 ^ 32) (addr, c)).map Prod.snd

def heapFree (addr size heap : UInt32) (c : Computer) : Option (UInt32 × Computer) :=
  if heap = 0 then some (0, c)
  else if size &&& 0xFFF ≠ 0 then some (0, c)
  else
    (c.load32 heap).bind fun start =>
      (c.load32 (heap + 9)).bind fun bitmap =>
        let index := (start - addr) / 0x1000
        (c.bitmapMap index (index + size / 0x1000) 0 bitmap).bind fun c =>
          (c.heapUnmap addr (addr + size)).map fun c => (1, c)

/-! ### Turning paging on -/

/-- `while (i < kernel_pointer) { frame_set(i); i += 0x1000; }` -/
def bootFrames (c : Computer) : Option Computer :=
  (whileLoop (fun x => decide (x.1 < x.2.kernelPointer))
    (fun x => (x.2.frameSet x.1).map fun c => (x.1 + 0x1000, c)) (2 ^ 32) (0, c)).map Prod.snd

/-- `while (i < kernel_pointer) { page_map(i, i, 3, NULL); i += 0x1000; }` -/
def bootPages (c : Computer) : Option Computer :=
  (whileLoop (fun x => decide (x.1 < x.2.kernelPointer))
    (fun x => (x.2.pageMap x.1 x.1 3 0).map fun y => (x.1 + 0x1000, y.2)) (2 ^ 32)
    (0, c)).map Prod.snd

/-- The first part of `paging_initialize`: the frame bitmap and the kernel heap are made. -/
def bootCreate (memUpper : UInt32) (c : Computer) : Option Computer :=
  (c.bitmapCreate (memUpper / 4)).bind fun bitmap =>
    (heapCreate memUpper 0 true false { bitmap.2 with frameBitmap := bitmap.1 }).map fun heap =>
      { heap.2 with kernelHeap := heap.1 }

/-- `paging_initialize`, less its messages and the page-fault handler it installs.  `mem_lower` is
never looked at. -/
def pagingInitialize (_memLower memUpper : UInt32) (c : Computer) : Option Computer :=
  (c.bootCreate memUpper).bind fun c =>
    c.bootFrames.bind fun c =>
      (c.directoryCreate 2).bind fun directory =>
        (directory.2.directoryLoad directory.1).bootPages.map fun c => { c with pagingState := 1 }

end Computer

end CometOS
