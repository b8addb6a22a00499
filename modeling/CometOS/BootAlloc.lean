import CometOS.Bitmap
import CometOS.Lib.ByteMemory

/-!
# The boot allocator and what is built with it

`ponter_move_int` of `mem/paging.c` hands out memory by moving `kernel_pointer` on; `kmalloc` is
that while paging is off.  `bitmap_create` and `heap_create` take their memory from it.
-/

namespace CometOS

open ByteMemory Word32

/-- `ponter_move_int(size, NULL, align)`: the region handed out and the new `kernel_pointer`.  Every
caller passes a null `physaddr`. -/
def ponterMoveInt (size align kernelPointer : UInt32) : UInt32 × UInt32 :=
  let kernelPointer :=
    if align = 1 ∧ kernelPointer &&& 0xFFFFF000 ≠ 0 then (kernelPointer &&& 0xFFFFF000) + 0x1000
    else kernelPointer
  (kernelPointer, kernelPointer + size)

/-- `kmalloc` while `paging_state` is zero. -/
def kmallocBoot (size kernelPointer : UInt32) : UInt32 × UInt32 :=
  ponterMoveInt size 1 kernelPointer

/-- `sizeof(bitmap_t)`: two words. -/
def sizeofBitmap : UInt32 := 8

/-- `bitmap_create` while paging is off. -/
def bitmapCreate (size : UInt32) (mem : Mem) (kernelPointer : UInt32) : Bitmap × UInt32 :=
  let header := kmallocBoot sizeofBitmap kernelPointer
  let entries := kmallocBoot (size / 0x20) header.2
  (bitmapMap 0 size 0
    { addr := header.1, entries := entries.1, size
      words := fun i => read32 mem (entries.1 + 4 * i) }, entries.2)

/-- A `heap_t`, with its own address. -/
structure Heap where
  addr : UInt32
  start : UInt32
  stop : UInt32
  rw : Bool
  user : Bool
  bitmap : Bitmap

/-- `sizeof(heap_t *)`, which is what `heap_create` reserves. -/
def sizeofHeapPointer : UInt32 := 4

/-- `sizeof(heap_t)`: two words, the two flags in a byte of their own, and a pointer, packed. -/
def sizeofHeap : ℕ := 13

/-- `(start - end) / 4` on two `void *`: a signed quotient, made unsigned again. -/
def pointerQuarter (start stop : UInt32) : UInt32 := ((start - stop).toInt32 / 4).toUInt32

def heapCreate (start stop : UInt32) (rw usermode : Bool) (mem : Mem) (kernelPointer : UInt32) :
    Heap × UInt32 :=
  let heap := ponterMoveInt sizeofHeapPointer 0 kernelPointer
  let stop' := stop &&& 0xFFFFF000
  let bitmap := bitmapCreate (pointerQuarter start stop) mem heap.2
  ({ addr := heap.1, start := start &&& 0xFFFFF000
     stop := if stop' ≠ stop then stop' + 0x1000 else stop'
     rw, user := usermode, bitmap := bitmap.1 }, bitmap.2)

/-- What `paging_initialize` creates first: the frame bitmap, then the kernel heap. -/
def bootCreate (memUpper : UInt32) (mem : Mem) (kernelPointer : UInt32) :
    (Bitmap × Heap) × UInt32 :=
  let frameBitmap := bitmapCreate (memUpper / 4) mem kernelPointer
  let kernelHeap := heapCreate memUpper 0 true false mem frameBitmap.2
  ((frameBitmap.1, kernelHeap.1), kernelHeap.2)

/-! ### The regions handed out -/

theorem toNat_and_page (a : UInt32) : (a &&& 0xFFFFF000).toNat = a.toNat / 0x1000 * 0x1000 :=
  toNat_and_high a 12 (by decide)

theorem ponterMoveInt_snd (size align kernelPointer : UInt32) :
    (ponterMoveInt size align kernelPointer).2 = (ponterMoveInt size align kernelPointer).1 + size :=
  rfl

@[simp] theorem ponterMoveInt_unaligned (size kernelPointer : UInt32) :
    ponterMoveInt size 0 kernelPointer = (kernelPointer, kernelPointer + size) := rfl

/-- The region starts at or above `kernel_pointer`, by at most a page, while the addresses last. -/
theorem ponterMoveInt_fst_bounds (size align : UInt32) {kernelPointer : UInt32}
    (h : kernelPointer.toNat + 0x1000 < 2 ^ 32) :
    kernelPointer.toNat ≤ (ponterMoveInt size align kernelPointer).1.toNat ∧
      (ponterMoveInt size align kernelPointer).1.toNat ≤ kernelPointer.toNat + 0x1000 := by
  have hp := toNat_and_page kernelPointer
  unfold ponterMoveInt
  simp only
  split
  · rw [toNat_add_of_lt (by rw [hp]; simp only [UInt32.reduceToNat]; omega), hp]
    simp only [UInt32.reduceToNat]
    omega
  · exact ⟨le_rfl, Nat.le_add_right _ _⟩

/-! ### What the creators build -/

theorem bitmapCreate_size (size : UInt32) (mem : Mem) (kernelPointer : UInt32) :
    (bitmapCreate size mem kernelPointer).1.size = size :=
  (bitmapMap_words 0 size 0 _).1

@[simp] theorem heapCreate_bitmap_size (start stop : UInt32) (rw' usermode : Bool) (mem : Mem)
    (kernelPointer : UInt32) :
    (heapCreate start stop rw' usermode mem kernelPointer).1.bitmap.size =
      pointerQuarter start stop :=
  bitmapCreate_size _ _ _

/-- `mem_upper` in the upper half of the range is negative as a pointer difference, and the number
of entries that comes out is huge. -/
theorem toNat_pointerQuarter (start : UInt32) :
    (pointerQuarter start 0).toNat =
      if start.toNat < 2 ^ 31 then start.toNat / 4
      else (2 ^ 32 - (2 ^ 32 - start.toNat) / 4) % 2 ^ 32 := by
  have hs := start.toNat_lt
  have hx : (start - 0).toInt32.toInt =
      if start.toNat < 2 ^ 31 then (start.toNat : ℤ) else start.toNat - 2 ^ 32 := by
    rw [UInt32.sub_zero, toInt_toInt32]
  have hq : ((start - 0).toInt32 / 4).toInt = ((start - 0).toInt32.toInt).tdiv 4 :=
    Int32.toInt_div_of_ne_right _ _ (by decide)
  have hn : ((pointerQuarter start 0).toNat : ℤ) = ((start - 0).toInt32 / 4).toInt % 2 ^ 32 := by
    show (((start - 0).toInt32 / 4).toBitVec.toNat : ℤ) = ((start - 0).toInt32 / 4).toBitVec.toInt % _
    rw [BitVec.toInt_eq_toNat_cond]
    have := ((start - 0).toInt32 / 4).toBitVec.isLt
    split_ifs <;> omega
  rw [hq, hx] at hn
  split_ifs at hn ⊢ with hlt
  · rw [Int.tdiv_eq_ediv_of_nonneg (by omega)] at hn
    omega
  · have : ((start.toNat : ℤ) - 2 ^ 32).tdiv 4 = -((2 ^ 32 - start.toNat) / 4 : ℤ) := by
      rw [show (start.toNat : ℤ) - 2 ^ 32 = -(2 ^ 32 - start.toNat) by ring, Int.neg_tdiv,
        Int.tdiv_eq_ediv_of_nonneg (by omega)]
    rw [this] at hn
    omega

end CometOS
