import CometOS.Ext2
import CometOS.Lib.Reader
import CometOS.Printf

/-!
# The ext2 reader, read by read

The functions of `ext2.c` again, and those of `initrd.c` that walk a directory, as programs that put
each read through a pointer into the image on record.  What they read through `node` and `name`,
which are the caller's, is not.  A division by zero is a trap, and the loops over the image take a
number of turns.

`kmalloc` hands out an object of its own: where it is, which may be nowhere, and what it holds are
given to the functions that ask for one.
-/

namespace CometOS

open ByteMemory Reader Word32

namespace ReadBy

open Prog

/-! ### `ext2.c` -/

def ext2BlocksizeGet (superblock : UInt32) : Prog UInt32 := do
  let log ← load32 (superblock + 24)
  pure (1024 <<< log)

def ext2BlockgroupGet (blockgroup superblock : UInt32) : Prog UInt32 := do
  let blocksize ← ext2BlocksizeGet superblock
  let blockPerGroup ← load32 (superblock + 32)
  let offset := blocksize * blockPerGroup * blockgroup
  let blocksize ← ext2BlocksizeGet superblock
  pure (superblock - blocksize + offset)

def ext2BgDesGet (blockgroup superblock : UInt32) : Prog UInt32 := do
  let group ← ext2BlockgroupGet blockgroup superblock
  let blocksize ← ext2BlocksizeGet superblock
  pure (group + blocksize * 2)

/-- The address of an inode, 0 for none. -/
def ext2InodeGet (inode superblock : UInt32) : Prog UInt32 := do
  let inodeTotal ← load32 superblock
  if inodeTotal < inode then pure 0
  else do
    let inodePerGroup ← load32 (superblock + 40)
    if inodePerGroup = 0 then trap
    else do
      let blockGroup := (inode - 1) / inodePerGroup
      let blockTotal ← load32 (superblock + 4)
      let blockPerGroup ← load32 (superblock + 32)
      if blockPerGroup = 0 then trap
      else if blockTotal / blockPerGroup < blockGroup then pure 0
      else do
        let bgDes ← ext2BgDesGet blockGroup superblock
        let inodePerGroup ← load32 (superblock + 40)
        let index := (inode - 1) % inodePerGroup
        let blocksize ← ext2BlocksizeGet superblock
        let inodeTableAddr ← load32 (bgDes + 8)
        let inodeTable := superblock + (blocksize * inodeTableAddr - 1024)
        let inodeSize ← load16 (superblock + 88)
        pure (inodeTable + inodeSize.toUInt32 * index)

def ext2BlockGet (block superblock : UInt32) : Prog UInt32 :=
  if block ≤ 0 then pure superblock
  else do
    let blocksize ← ext2BlocksizeGet superblock
    pure (superblock - 1024 + blocksize * block)

/-- The address of a block of a file, 0 for none. -/
def ext2InodeblockGet (block inode superblock : UInt32) : Prog UInt32 :=
  if block < 12 then do
    let pointer ← load32 (inode + 40 + 4 * block)
    if pointer = 0 then pure 0
    else do
      let pointer ← load32 (inode + 40 + 4 * block)
      ext2BlockGet pointer superblock
  else do
    let blocksize ← ext2BlocksizeGet superblock
    if block < 12 + blocksize / 4 then do
      let index := 4 * (block - 12)
      let pointer ← load32 (inode + 40 + 4 * 12)
      let indirectBlock ← ext2BlockGet pointer superblock
      let entry ← load32 (indirectBlock + index)
      if entry = 0 then pure 0
      else do
        let entry ← load32 (indirectBlock + index)
        ext2BlockGet entry superblock
    else pure 0

/-- Where the walk of `ext2_direntry_get` is. -/
structure DirCursor where
  blockNumber : UInt32
  block : UInt32
  offset : UInt32
  i : UInt32

/-- A turn of `ext2_direntry_get`; `goto Find` is a turn of its own. -/
def ext2DirentryStep (index inode superblock : UInt32) (s : DirCursor) :
    Prog (DirCursor ⊕ UInt32) :=
  if s.i < index then do
    let size ← load32 (inode + 4)
    if size < s.offset then pure (.inr 0)
    else do
      let blocksize ← ext2BlocksizeGet superblock
      if blocksize ≤ s.offset then do
        let block ← ext2InodeblockGet (s.blockNumber + 1) inode superblock
        pure (.inl { s with blockNumber := s.blockNumber + 1, block })
      else do
        let recLen ← load16 (s.block + s.offset + 4)
        pure (.inl { s with offset := s.offset + recLen.toUInt32, i := s.i + 1 })
  else if s.i = index then pure (.inr (s.block + s.offset))
  else pure (.inr 0)

/-- The address of a directory entry, 0 for none. -/
def ext2DirentryGet (n : ℕ) (index inode superblock : UInt32) : Prog UInt32 := do
  let block ← ext2InodeblockGet 0 inode superblock
  loop (ext2DirentryStep index inode superblock) n ⟨0, block, 0, 0⟩

/-- `memcpy` out of the image into an object of its own. -/
def memcpyFrom (src size : UInt32) (buffer : Buffer) : Prog Buffer := fun mem =>
  (some (CometOS.memcpyFrom mem src size buffer), [⟨src, size.toNat⟩])

/-- A turn of `ext2_read`. -/
def ext2ReadStep (inode superblock : UInt32) (s : ReadState) : Prog (ReadState ⊕ Buffer) := do
  let addr ← ext2InodeblockGet s.block inode superblock
  let blocksize ← ext2BlocksizeGet superblock
  if s.index ≤ blocksize - s.blockOffset then do
    let buffer ← memcpyFrom (addr + s.blockOffset) s.index s.buffer
    pure (.inr buffer)
  else do
    let blocksize ← ext2BlocksizeGet superblock
    let buffer ← memcpyFrom (addr + s.blockOffset) (blocksize - s.blockOffset) s.buffer
    let blocksize ← ext2BlocksizeGet superblock
    pure (.inl
      { index := s.index - (blocksize - s.blockOffset), block := s.block + 1, blockOffset := 0
        buffer })

/-- Where `ext2_read` starts: the block and the place in it. -/
def ext2ReadStart (offset superblock : UInt32) : Prog (UInt32 × UInt32) :=
  if offset ≠ 0 then do
    let blocksize ← ext2BlocksizeGet superblock
    if blocksize = 0 then trap
    else do
      let blocksize' ← ext2BlocksizeGet superblock
      pure (offset / blocksize, offset % blocksize')
  else pure (0, 0)

def ext2Read (n : ℕ) (offset : UInt32) (buffer : Option Buffer) (size inode superblock : UInt32) :
    Prog (UInt32 × Option Buffer) :=
  match buffer with
  | none => pure (0, none)
  | some b =>
    if inode = 0 ∨ superblock = 0 then pure (0, some b)
    else do
      let start ← ext2ReadStart offset superblock
      let b ← loop (ext2ReadStep inode superblock) n ⟨size, start.1, start.2, b⟩
      pure (size, some b)

/-! ### Strings in the image -/

/-- A turn of `strlen`. -/
def strlenStep (string result : UInt32) : Prog (UInt32 ⊕ UInt32) := do
  let c ← load8 (string + result)
  if c ≠ 0 then pure (.inl (result + 1)) else pure (.inr result)

def strlen (string : UInt32) : Prog UInt32 := loop (strlenStep string) (2 ^ 32) 0

/-- A turn of `strcmp` of a string in the image with one of the caller's. -/
def strcmpStep (a b i : UInt32) : Prog (UInt32 ⊕ ℤ) := do
  let x ← load8 (a + i)
  if x ≠ 0 then do
    let y ← peek fun mem => some (mem (b + i))
    if y ≠ 0 then
      if x ≠ y then
        if (x = 0 ∧ y ≠ 0) ∨ (x ≠ 0 ∧ y = 0) then pure (.inr 1) else pure (.inr 0)
      else pure (.inl (i + 1))
    else pure (.inr 0)
  else pure (.inr 0)

def strcmp (a b : UInt32) : Prog ℤ := loop (strcmpStep a b) (2 ^ 32) 0

/-- `strcpy` out of the image to the start of an object. -/
def strcpy (buffer : Buffer) (src : UInt32) : Prog Buffer := do
  let size ← strlen src
  memcpyFrom src size buffer

/-! ### `initrd.c` -/

/-- A word of an object. -/
def fetch32 (b : Buffer) (k : ℕ) : UInt32 :=
  UInt32.ofNat ((b k).toNat + 0x100 * (b (k + 1)).toNat + 0x10000 * (b (k + 2)).toNat +
    0x1000000 * (b (k + 3)).toNat)

def store32 (b : Buffer) (k : ℕ) (v : UInt32) : Buffer := fun x =>
  if k ≤ x ∧ x < k + 4 then UInt8.ofNat (v.toNat / 0x100 ^ (x - k)) else b x

/-- The value of `ext2_inode_typetofile`. -/
def typetofile (type : UInt16) : UInt32 :=
  if type &&& 0xA000 = 0xA000 then 6
  else if type &&& 0x8000 = 0x8000 then 1
  else if type &&& 0x6000 = 0x6000 then 4
  else if type &&& 0x4000 = 0x4000 then 2
  else if type &&& 0x2000 = 0x2000 then 3
  else if type &&& 0x1000 = 0x1000 then 5
  else 0

/-- `ext2_inode_typetofile`; its tests all read the one field. -/
def ext2InodeTypetofile (inode : UInt32) : Prog UInt32 := do
  let type ← load16 inode
  pure (typetofile type)

/-- Where `initrd_read`, `initrd_readdir` and `initrd_finddir` are. -/
structure InitrdCode where
  read : UInt32
  readdir : UInt32
  finddir : UInt32

/-- `initrd_finddir` has found the entry; `file` is where `kmalloc` has put the `file_t` and `fresh`
what that holds. -/
def initrdFound (code : InitrdCode) (file : UInt32) (fresh : Buffer) (ent superblock : UInt32) :
    Prog (UInt32 × Buffer) := do
  let number ← load32 ent
  let inode ← ext2InodeGet number superblock
  let length ← strlen (ent + 8)
  if 128 < length then pure (0, fresh)
  else do
    let b ← strcpy fresh (ent + 8)
    let type ← load16 inode
    let b := store32 b 128 (type.toUInt32 &&& 0xFFF)
    let uid ← load16 (inode + 2)
    let b := store32 b 132 uid.toUInt32
    let gid ← load16 (inode + 24)
    let b := store32 b 136 gid.toUInt32
    let number ← load32 ent
    let b := store32 b 144 number
    let type ← ext2InodeTypetofile inode
    let b := store32 b 140 (fetch32 b 140 ||| type)
    let size ← load32 (inode + 4)
    let b := store32 b 148 size
    let b := store32 b 156 code.read
    let b := store32 b 160 0
    let b := store32 b 164 0
    let b := store32 b 168 0
    let b := store32 b 172 code.readdir
    let b := store32 b 176 code.finddir
    let b := store32 b 180 0
    let b := store32 b 152 0
    pure (file, b)

/-- `strlen(name) == ent->name_len && !strcmp(&ent->name, name)`. -/
def entryMatches (ent name : UInt32) : Prog Bool := do
  let length ← peek fun mem => CometOS.strlen mem name
  let nameLen ← load16 (ent + 6)
  if length = nameLen.toUInt32 then do
    let c ← strcmp (ent + 8) name
    pure (c == 0)
  else pure false

/-- A turn of `initrd_finddir`, at offset `index` of the block. -/
def initrdFinddirStep (code : InitrdCode) (file : UInt32) (fresh : Buffer)
    (block inode name superblock index : UInt32) : Prog (UInt32 ⊕ (UInt32 × Buffer)) := do
  let size ← load32 (inode + 4)
  if index < size then do
    let found ← entryMatches (block + index) name
    if found = true then do
      let r ← initrdFound code file fresh (block + index) superblock
      pure (.inr r)
    else do
      let recLen ← load16 (block + index + 4)
      pure (.inl (index + recLen.toUInt32))
  else pure (.inr (0, fresh))

/-- The inode number of a node. -/
def nodeInode (mem : Mem) (node : UInt32) : UInt32 := read32 mem (node + 144)

def initrdFinddir (n : ℕ) (code : InitrdCode) (file : UInt32) (fresh : Buffer)
    (node name superblock : UInt32) : Prog (UInt32 × Buffer) := do
  let number ← peek fun mem => some (nodeInode mem node)
  let inode ← ext2InodeGet number superblock
  let block ← ext2InodeblockGet 0 inode superblock
  if node = 0 then pure (0, fresh)
  else do
    let type ← load16 inode
    if type &&& 0x4000 = 0 ∨ block = 0 then pure (0, fresh)
    else loop (initrdFinddirStep code file fresh block inode name superblock) n 0

/-- `initrd_readdir`; `entry` is where `kmalloc` has put the `struct dir_entry` and `fresh` what that
holds. -/
def initrdReaddir (n : ℕ) (entry : UInt32) (fresh : Buffer) (node index superblock : UInt32) :
    Prog (UInt32 × Buffer) := do
  let number ← peek fun mem => some (nodeInode mem node)
  let inode ← ext2InodeGet number superblock
  let ent ← ext2DirentryGet n index inode superblock
  if inode = 0 ∨ ent = 0 then pure (0, fresh)
  else do
    let nameLen ← load16 (ent + 6)
    let b ← memcpyFrom (ent + 8) nameLen.toUInt32 fresh
    let nameLen ← load16 (ent + 6)
    let b := Function.update b nameLen.toNat 0
    let number ← load32 ent
    pure (entry, store32 b 128 number)

end ReadBy

end CometOS
