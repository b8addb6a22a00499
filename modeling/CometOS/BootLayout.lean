import CometOS.BootAlloc

/-!
# The layout of the boot-time structures

`paging_initialize` starts by creating the frame bitmap and the kernel heap with its bitmap.  Here
their addresses are compared with the regions the boot allocator handed out for them.
-/

namespace CometOS

open ByteMemory Word32

/-- The `n` bytes at `a` lie in the `k` bytes at `b`. -/
def Inside (a : UInt32) (n : ℕ) (b : UInt32) (k : ℕ) : Prop := (a - b).toNat + n ≤ k

/-- Every word `entries[0..size)` lies in the `size / 0x20` bytes `bitmap_create` asks for. -/
def EntriesInside (b : Bitmap) : Prop :=
  ∀ i < b.size, Inside (b.entries + 4 * i) 4 b.entries (b.size / 0x20).toNat

/-- The structures, each an address and a number of bytes. -/
def bootStructures (frameBitmap : Bitmap) (kernelHeap : Heap) : List (UInt32 × ℕ) :=
  [(frameBitmap.addr, sizeofBitmap.toNat), (frameBitmap.entries, 4 * frameBitmap.size.toNat),
    (kernelHeap.addr, sizeofHeap), (kernelHeap.bitmap.addr, sizeofBitmap.toNat),
    (kernelHeap.bitmap.entries, 4 * kernelHeap.bitmap.size.toNat)]

/-- What the layout should be: each structure in its own region, and no two touching. -/
structure BootLayoutOk (frameBitmap : Bitmap) (kernelHeap : Heap) : Prop where
  frame_entries : EntriesInside frameBitmap
  heap_entries : EntriesInside kernelHeap.bitmap
  heap_inside : Inside kernelHeap.addr sizeofHeap kernelHeap.addr sizeofHeapPointer.toNat
  disjoint : (bootStructures frameBitmap kernelHeap).Pairwise fun r s => Apart r.1 r.2 s.1 s.2

/-- The words of a bitmap are in their region only if there are none: 32 entries take 128 bytes and
are given one. -/
theorem entriesInside_iff (b : Bitmap) : EntriesInside b ↔ b.size = 0 := by
  constructor
  · intro h
    by_contra hne
    have hpos := toNat_pos hne
    have h0 := h 0 (UInt32.lt_iff_toNat_lt.2 hpos)
    have hlast := h (b.size / 0x20) ?_
    · rw [Inside, show b.entries + 4 * 0 - b.entries = 0 by grind] at h0
      rw [Inside, show b.entries + 4 * (b.size / 0x20) - b.entries = 4 * (b.size / 0x20) by grind,
        UInt32.toNat_mul, UInt32.toNat_div] at hlast
      rw [UInt32.toNat_div] at h0
      simp only [UInt32.reduceToNat] at h0 hlast
      have := b.size.toNat_lt
      omega
    · rw [UInt32.lt_iff_toNat_lt, UInt32.toNat_div]
      simp only [UInt32.reduceToNat]
      omega
  · intro h i hi
    rw [h, UInt32.lt_iff_toNat_lt] at hi
    exact absurd hi (Nat.not_lt_zero _)

/-- `heap_create` reserves the size of a pointer, and a `heap_t` is larger. -/
theorem heap_not_inside (addr : UInt32) :
    ¬ Inside addr sizeofHeap addr sizeofHeapPointer.toNat := by
  rw [Inside, show addr - addr = 0 by grind]
  decide

theorem bootCreate_frame_size (memUpper : UInt32) (mem : Mem) (kernelPointer : UInt32) :
    (bootCreate memUpper mem kernelPointer).1.1.size = memUpper / 4 :=
  bitmapCreate_size _ _ _

/-- **The layout is never right**, whatever the memory size: the `heap_t` is larger than its
region. -/
theorem bootLayout_not_ok (memUpper : UInt32) (mem : Mem) (kernelPointer : UInt32) :
    ¬ BootLayoutOk (bootCreate memUpper mem kernelPointer).1.1
      (bootCreate memUpper mem kernelPointer).1.2 :=
  fun h => heap_not_inside _ h.heap_inside

/-- With 31 MiB and the kernel ending at `0x110000`, the words of the frame bitmap run over the
kernel heap. -/
theorem bootLayout_not_ok_31M : ¬ BootLayoutOk (bootCreate 0x7C00 (fun _ => 0) 0x110000).1.1
    (bootCreate 0x7C00 (fun _ => 0) 0x110000).1.2 := by
  intro h
  have hsize := (entriesInside_iff _).1 h.frame_entries
  rw [bootCreate_frame_size] at hsize
  exact absurd hsize (by decide)

end CometOS
