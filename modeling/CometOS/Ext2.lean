import CometOS.Lib.ByteMemory
import CometOS.Lib.Loop

/-!
# The ext2 reader (`ext2.c`)

The image lies in memory and the reader goes through it with pointers; here a pointer is an address
and `NULL` is 0.  A structure of the file system is the address it starts at, and each of its fields
that the reader uses is a read at the field's offset.  What a well-formed image is, and where the
format puts an inode and a block of a file, is said at the end, without reference to the reader.
-/

namespace CometOS

open ByteMemory Loop Word32

/-! ### The structures -/

namespace Superblock

def inodeTotal (mem : Mem) (superblock : UInt32) : UInt32 := read32 mem superblock

def blockTotal (mem : Mem) (superblock : UInt32) : UInt32 := read32 mem (superblock + 4)

def blockSuperblockIndex (mem : Mem) (superblock : UInt32) : UInt32 := read32 mem (superblock + 20)

def blockSizeLog (mem : Mem) (superblock : UInt32) : UInt32 := read32 mem (superblock + 24)

def blockPerGroup (mem : Mem) (superblock : UInt32) : UInt32 := read32 mem (superblock + 32)

def inodePerGroup (mem : Mem) (superblock : UInt32) : UInt32 := read32 mem (superblock + 40)

def magic (mem : Mem) (superblock : UInt32) : UInt16 := read16 mem (superblock + 56)

def inodeSize (mem : Mem) (superblock : UInt32) : UInt16 := read16 mem (superblock + 88)

end Superblock

/-- `inode_table_addr` of a block group descriptor. -/
def inodeTableAddr (mem : Mem) (bgDes : UInt32) : UInt32 := read32 mem (bgDes + 8)

namespace Inode

def size (mem : Mem) (inode : UInt32) : UInt32 := read32 mem (inode + 4)

/-- Entry `i` of `block`; the array has 12, and the one after it is `block_indirect[0]`. -/
def block (mem : Mem) (inode i : UInt32) : UInt32 := read32 mem (inode + 40 + 4 * i)

end Inode

/-- `EXT2_BLOCKSIZE_GET`. -/
def ext2BlocksizeGet (mem : Mem) (superblock : UInt32) : UInt32 :=
  1024 <<< Superblock.blockSizeLog mem superblock

/-! ### Mounting and finding an inode -/

def ext2SuperblockValidate (mem : Mem) (superblock : UInt32) : Bool :=
  Superblock.magic mem superblock == 0xEF53

/-- The superblock of the image at `addr`, with the memory after the inode size has been set;
`none` is `NULL`. -/
def ext2SuperblockGet (mem : Mem) (addr : UInt32) : Option (UInt32 × Mem) :=
  let superblock := addr + 1024
  if ext2SuperblockValidate mem superblock then
    some (superblock, write16 mem (superblock + 88) 128)
  else none

def ext2BlockgroupGet (mem : Mem) (blockgroup superblock : UInt32) : UInt32 :=
  let offset :=
    ext2BlocksizeGet mem superblock * Superblock.blockPerGroup mem superblock * blockgroup
  superblock - ext2BlocksizeGet mem superblock + offset

def ext2BgDesGet (mem : Mem) (blockgroup superblock : UInt32) : UInt32 :=
  ext2BlockgroupGet mem blockgroup superblock + ext2BlocksizeGet mem superblock * 2

/-- The address of an inode, 0 for none; `none` is a division by zero. -/
def ext2InodeGet (mem : Mem) (inode superblock : UInt32) : Option UInt32 :=
  if Superblock.inodeTotal mem superblock < inode then some 0
  else if Superblock.inodePerGroup mem superblock = 0 then none
  else
    let blockGroup := (inode - 1) / Superblock.inodePerGroup mem superblock
    if Superblock.blockPerGroup mem superblock = 0 then none
    else if Superblock.blockTotal mem superblock / Superblock.blockPerGroup mem superblock <
        blockGroup then some 0
    else
      let bgDes := ext2BgDesGet mem blockGroup superblock
      let index := (inode - 1) % Superblock.inodePerGroup mem superblock
      let inodeTableOffset := ext2BlocksizeGet mem superblock * inodeTableAddr mem bgDes - 1024
      let inodeTable := superblock + inodeTableOffset
      some (inodeTable + (Superblock.inodeSize mem superblock).toUInt32 * index)

/-! ### Blocks of a file -/

def ext2BlockGet (mem : Mem) (block superblock : UInt32) : UInt32 :=
  if block ≤ 0 then superblock
  else superblock - 1024 + ext2BlocksizeGet mem superblock * block

/-- The address of a block of a file, 0 for none. -/
def ext2InodeblockGet (mem : Mem) (block inode superblock : UInt32) : UInt32 :=
  if block < 12 then
    if Inode.block mem inode block = 0 then 0
    else ext2BlockGet mem (Inode.block mem inode block) superblock
  else if block < 12 + ext2BlocksizeGet mem superblock / 4 then
    let index := 4 * (block - 12)
    let indirectBlock := ext2BlockGet mem (Inode.block mem inode 12) superblock
    if read32 mem (indirectBlock + index) = 0 then 0
    else ext2BlockGet mem (read32 mem (indirectBlock + index)) superblock
  else 0

/-! ### Reading -/

/-- The caller's buffer, an object of its own: a byte for each position. -/
abbrev Buffer := ℕ → UInt8

/-- `memcpy(buffer, src, size)`. -/
def memcpyFrom (mem : Mem) (src size : UInt32) (buffer : Buffer) : Buffer :=
  forUp (fun i b => Function.update b i (mem (src + UInt32.ofNat i))) 0 size.toNat buffer

/-- What the loop of `ext2_read` works on. -/
structure ReadState where
  index : UInt32
  block : UInt32
  blockOffset : UInt32
  buffer : Buffer

/-- How many bytes the block still has. -/
def ReadState.left (mem : Mem) (superblock : UInt32) (s : ReadState) : UInt32 :=
  ext2BlocksizeGet mem superblock - s.blockOffset

/-- One turn that does not leave the loop. -/
def ext2ReadTurn (mem : Mem) (inode superblock : UInt32) (s : ReadState) : ReadState :=
  { index := s.index - s.left mem superblock
    block := s.block + 1
    blockOffset := 0
    buffer := memcpyFrom mem (ext2InodeblockGet mem s.block inode superblock + s.blockOffset)
      (s.left mem superblock) s.buffer }

/-- `ext2_read`; no buffer is `none`.  With a block size that is not 0 there are at most `size`
turns, so that the loop has always been left within the given number of tests; with a block size of
0 it divides by zero or goes on for ever. -/
def ext2Read (mem : Mem) (offset : UInt32) (buffer : Option Buffer) (size inode superblock : UInt32) :
    Option (UInt32 × Option Buffer) :=
  match buffer with
  | none => some (0, none)
  | some b =>
    if inode = 0 ∨ superblock = 0 then some (0, some b)
    else if offset ≠ 0 ∧ ext2BlocksizeGet mem superblock = 0 then none
    else
      let block := if offset ≠ 0 then offset / ext2BlocksizeGet mem superblock else 0
      let blockOffset := if offset ≠ 0 then offset % ext2BlocksizeGet mem superblock else 0
      (whileLoop (fun s => s.left mem superblock < s.index)
          (fun s => some (ext2ReadTurn mem inode superblock s)) (2 ^ 32)
          ⟨size, block, blockOffset, b⟩).map fun s =>
        (size, some (memcpyFrom mem
          (ext2InodeblockGet mem s.block inode superblock + s.blockOffset) s.index s.buffer))

/-! ### The image -/

/-- The number of block groups: what is left after the first data block, divided up. -/
def groupCount (mem : Mem) (base : UInt32) : ℕ :=
  ((Superblock.blockTotal mem (base + 1024)).toNat -
      (Superblock.blockSuperblockIndex mem (base + 1024)).toNat +
      ((Superblock.blockPerGroup mem (base + 1024)).toNat - 1)) /
    (Superblock.blockPerGroup mem (base + 1024)).toNat

/-- The descriptor of a group, in the table after the superblock's block. -/
def groupDescriptor (mem : Mem) (base g : UInt32) : UInt32 :=
  base + ext2BlocksizeGet mem (base + 1024) *
    (Superblock.blockSuperblockIndex mem (base + 1024) + 1) + 32 * g

/-- The first block of a group's inode table. -/
def inodeTableOf (mem : Mem) (base g : UInt32) : UInt32 :=
  inodeTableAddr mem (groupDescriptor mem base g)

/-- Where the format puts inode `n`. -/
def inodeAddr (mem : Mem) (base n : UInt32) : UInt32 :=
  base + ext2BlocksizeGet mem (base + 1024) *
      inodeTableOf mem base ((n - 1) / Superblock.inodePerGroup mem (base + 1024)) +
    (Superblock.inodeSize mem (base + 1024)).toUInt32 *
      ((n - 1) % Superblock.inodePerGroup mem (base + 1024))

/-- A well-formed image at `base`. -/
structure Ext2Image (mem : Mem) (base : UInt32) : Prop where
  magic : Superblock.magic mem (base + 1024) = 0xEF53
  log : (Superblock.blockSizeLog mem (base + 1024)).toNat ≤ 2
  /-- The superblock lies in block 1 where blocks have 1 KiB, and in block 0 otherwise. -/
  first : Superblock.blockSuperblockIndex mem (base + 1024) =
    if Superblock.blockSizeLog mem (base + 1024) = 0 then 1 else 0
  blockPerGroup : 0 < (Superblock.blockPerGroup mem (base + 1024)).toNat
  inodePerGroup : 0 < (Superblock.inodePerGroup mem (base + 1024)).toNat
  inodeSize : 128 ≤ (Superblock.inodeSize mem (base + 1024)).toNat ∧
    (Superblock.inodeSize mem (base + 1024)).toNat ≤
      (ext2BlocksizeGet mem (base + 1024)).toNat
  inodes : (Superblock.inodeTotal mem (base + 1024)).toNat =
    groupCount mem base * (Superblock.inodePerGroup mem (base + 1024)).toNat
  /-- The image is inside the address space. -/
  fits : base.toNat + (ext2BlocksizeGet mem (base + 1024)).toNat *
    (Superblock.blockTotal mem (base + 1024)).toNat ≤ 2 ^ 32
  nonempty : 0 < groupCount mem base
  /-- Each group has room for its two bitmaps and one block of inodes. -/
  group : ∀ g < groupCount mem base,
    (Superblock.blockSuperblockIndex mem (base + 1024)).toNat +
      (Superblock.blockPerGroup mem (base + 1024)).toNat * g + 3 ≤
        (Superblock.blockTotal mem (base + 1024)).toNat
  /-- The descriptor table ends where the first inode table starts, or before. -/
  descriptors : (ext2BlocksizeGet mem (base + 1024)).toNat *
      ((Superblock.blockSuperblockIndex mem (base + 1024)).toNat + 1) +
      32 * groupCount mem base ≤
    (ext2BlocksizeGet mem (base + 1024)).toNat * (inodeTableOf mem base 0).toNat
  /-- A group's inode table lies among its own blocks, inside the image. -/
  table_first : ∀ g < groupCount mem base,
    (Superblock.blockSuperblockIndex mem (base + 1024)).toNat +
        (Superblock.blockPerGroup mem (base + 1024)).toNat * g ≤
      (inodeTableOf mem base (UInt32.ofNat g)).toNat
  table_last : ∀ g < groupCount mem base,
    (ext2BlocksizeGet mem (base + 1024)).toNat * (inodeTableOf mem base (UInt32.ofNat g)).toNat +
        (Superblock.inodeSize mem (base + 1024)).toNat *
          (Superblock.inodePerGroup mem (base + 1024)).toNat ≤
      (ext2BlocksizeGet mem (base + 1024)).toNat *
        min ((Superblock.blockSuperblockIndex mem (base + 1024)).toNat +
            (Superblock.blockPerGroup mem (base + 1024)).toNat * (g + 1))
          (Superblock.blockTotal mem (base + 1024)).toNat

/-! ### The block size -/

/-- The block size is a power of two up to `2 ^ 31`, or 0 after a larger shift. -/
theorem blocksize_shape (mem : Mem) (superblock : UInt32) :
    (ext2BlocksizeGet mem superblock).toNat ≤ 2 ^ 31 ∧
      (ext2BlocksizeGet mem superblock).toNat % 1024 = 0 := by
  have hshift : (ext2BlocksizeGet mem superblock).toNat =
      1024 * 2 ^ ((Superblock.blockSizeLog mem superblock).toNat % 32) % 2 ^ 32 := by
    rw [ext2BlocksizeGet, UInt32.toNat_shiftLeft, Nat.shiftLeft_eq]
    rfl
  rw [hshift]
  have hlt : (Superblock.blockSizeLog mem superblock).toNat % 32 < 32 := Nat.mod_lt _ (by decide)
  generalize (Superblock.blockSizeLog mem superblock).toNat % 32 = k at hlt
  have hall : ∀ k < 32, 1024 * 2 ^ k % 2 ^ 32 ≤ 2 ^ 31 ∧ 1024 * 2 ^ k % 2 ^ 32 % 1024 = 0 := by
    decide
  exact hall k hlt

/-- The blocks that the pointers reach, counted by the code in 32 bits. -/
theorem lt_reach_iff (mem : Mem) (base b : UInt32) :
    b < 12 + ext2BlocksizeGet mem (base + 1024) / 4 ↔
      b.toNat < 12 + (ext2BlocksizeGet mem (base + 1024)).toNat / 4 := by
  have hbs := (blocksize_shape mem (base + 1024)).1
  have hquarter : (ext2BlocksizeGet mem (base + 1024) / 4).toNat =
      (ext2BlocksizeGet mem (base + 1024)).toNat / 4 := UInt32.toNat_div _ _
  rw [UInt32.lt_iff_toNat_lt, toNat_add_of_lt, hquarter]
  · rfl
  · rw [hquarter, show (12 : UInt32).toNat = 12 from rfl]
    omega

/-! ### An image with 256-byte inodes -/

/-- One group of 64 blocks of 1 KiB at 1 MiB, with 16 inodes of 256 bytes from block 5 on.  Inode 2
is a file of 2 KiB in blocks 10 and 11. -/
def image256 : Mem :=
  write32 (write32 (write32 (write32 (write16 (write16 (write32 (write32 (write32 (write32 (write32
    (fun _ => 0) 0x100400 16) 0x100404 64) 0x100414 1) 0x100420 8192) 0x100428 16)
    0x100438 0xEF53) 0x100458 256) 0x100808 5) 0x101504 2048) 0x101528 10) 0x10152C 11

theorem image256_groupCount : groupCount image256 0x100000 = 1 := by decide

theorem image256_table : inodeTableOf image256 0x100000 0 = 5 := by decide

theorem image256_wf : Ext2Image image256 0x100000 where
  magic := by decide
  log := by decide
  first := by decide
  blockPerGroup := by decide
  inodePerGroup := by decide
  inodeSize := by decide
  inodes := by decide
  fits := by decide
  nonempty := by
    rw [image256_groupCount]
    decide
  group := by
    rw [image256_groupCount]
    decide
  descriptors := by
    rw [image256_groupCount, image256_table]
    decide
  table_first := by
    rw [image256_groupCount]
    decide
  table_last := by
    rw [image256_groupCount]
    decide

end CometOS
