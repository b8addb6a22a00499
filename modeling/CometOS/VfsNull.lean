import CometOS.Ext2Finddir

/-!
# Null pointers behind the file operations

`vfs_read`, `vfs_readdir` and `vfs_finddir` on the nodes of the initrd (`vfs.c`, `initrd.c`,
`ext2.c`), with a look at each pointer that one of the ext2 functions has returned before something is
read through it: a null pointer is a trap.  Where an inode number is out of range, a directory has no
first block or a matching entry names no inode, some of the operations return 0 and the others come
to such a trap.
-/

namespace CometOS

open ByteMemory CString Reader Word32

namespace Checked

open Prog

/-- Something is read through the pointer. -/
def through (p : UInt32) : Prog Unit := if p = 0 then trap else pure ()

/-! ### `ext2.c` -/

def ext2InodeblockGet (block inode superblock : UInt32) : Prog UInt32 :=
  if block < 12 then do
    through inode
    let pointer ← load32 (inode + 40 + 4 * block)
    if pointer = 0 then pure 0
    else do
      let pointer ← load32 (inode + 40 + 4 * block)
      ReadBy.ext2BlockGet pointer superblock
  else do
    let blocksize ← ReadBy.ext2BlocksizeGet superblock
    if block < 12 + blocksize / 4 then do
      let index := 4 * (block - 12)
      through inode
      let pointer ← load32 (inode + 40 + 4 * 12)
      let indirectBlock ← ReadBy.ext2BlockGet pointer superblock
      let entry ← load32 (indirectBlock + index)
      if entry = 0 then pure 0
      else do
        let entry ← load32 (indirectBlock + index)
        ReadBy.ext2BlockGet entry superblock
    else pure 0

def ext2DirentryStep (index inode superblock : UInt32) (s : ReadBy.DirCursor) :
    Prog (ReadBy.DirCursor ⊕ UInt32) :=
  if s.i < index then do
    through inode
    let size ← load32 (inode + 4)
    if size < s.offset then pure (.inr 0)
    else do
      let blocksize ← ReadBy.ext2BlocksizeGet superblock
      if blocksize ≤ s.offset then do
        let block ← ext2InodeblockGet (s.blockNumber + 1) inode superblock
        pure (.inl { s with blockNumber := s.blockNumber + 1, block })
      else do
        through s.block
        let recLen ← load16 (s.block + s.offset + 4)
        pure (.inl { s with offset := s.offset + recLen.toUInt32, i := s.i + 1 })
  else if s.i = index then pure (.inr (s.block + s.offset))
  else pure (.inr 0)

def ext2DirentryGet (n : ℕ) (index inode superblock : UInt32) : Prog UInt32 := do
  let block ← ext2InodeblockGet 0 inode superblock
  loop (ext2DirentryStep index inode superblock) n ⟨0, block, 0, 0⟩

/-- `memcpy` from `offset` in a block; of no bytes, it reads none. -/
def memcpyFrom (block offset size : UInt32) (buffer : Buffer) : Prog Buffer :=
  if size = 0 then ReadBy.memcpyFrom (block + offset) size buffer
  else do
    through block
    ReadBy.memcpyFrom (block + offset) size buffer

def ext2ReadStep (inode superblock : UInt32) (s : ReadState) : Prog (ReadState ⊕ Buffer) := do
  let addr ← ext2InodeblockGet s.block inode superblock
  let blocksize ← ReadBy.ext2BlocksizeGet superblock
  if s.index ≤ blocksize - s.blockOffset then do
    let buffer ← memcpyFrom addr s.blockOffset s.index s.buffer
    pure (.inr buffer)
  else do
    let blocksize ← ReadBy.ext2BlocksizeGet superblock
    let buffer ← memcpyFrom addr s.blockOffset (blocksize - s.blockOffset) s.buffer
    let blocksize ← ReadBy.ext2BlocksizeGet superblock
    pure (.inl
      { index := s.index - (blocksize - s.blockOffset), block := s.block + 1, blockOffset := 0
        buffer })

def ext2Read (n : ℕ) (offset : UInt32) (buffer : Option Buffer) (size inode superblock : UInt32) :
    Prog (UInt32 × Option Buffer) :=
  match buffer with
  | none => pure (0, none)
  | some b =>
    if inode = 0 ∨ superblock = 0 then pure (0, some b)
    else do
      let start ← ReadBy.ext2ReadStart offset superblock
      let b ← loop (ext2ReadStep inode superblock) n ⟨size, start.1, start.2, b⟩
      pure (size, some b)

/-! ### `initrd.c` -/

def initrdRead (n : ℕ) (node offset size : UInt32) (buffer : Option Buffer) (superblock : UInt32) :
    Prog (UInt32 × Option Buffer) := do
  let number ← peek fun mem => some (ReadBy.nodeInode mem node)
  let inode ← ReadBy.ext2InodeGet number superblock
  ext2Read n offset buffer size inode superblock

def initrdReaddir (n : ℕ) (entry : UInt32) (fresh : Buffer) (node index superblock : UInt32) :
    Prog (UInt32 × Buffer) := do
  let number ← peek fun mem => some (ReadBy.nodeInode mem node)
  let inode ← ReadBy.ext2InodeGet number superblock
  let ent ← ext2DirentryGet n index inode superblock
  if inode = 0 ∨ ent = 0 then pure (0, fresh)
  else do
    let nameLen ← load16 (ent + 6)
    let b ← ReadBy.memcpyFrom (ent + 8) nameLen.toUInt32 fresh
    let nameLen ← load16 (ent + 6)
    let b := Function.update b nameLen.toNat 0
    let number ← load32 ent
    pure (entry, ReadBy.store32 b 128 number)

/-- `initrd_finddir` has found the entry.  The inode is looked at where the name is not too long,
before it is read; what is read and stored besides is as it was. -/
def initrdFound (code : ReadBy.InitrdCode) (file : UInt32) (fresh : Buffer) (ent superblock : UInt32) :
    Prog (UInt32 × Buffer) := do
  let number ← load32 ent
  let inode ← ReadBy.ext2InodeGet number superblock
  let length ← ReadBy.strlen (ent + 8)
  if 128 < length then pure (0, fresh)
  else do
    through inode
    ReadBy.initrdFound code file fresh ent superblock

/-- In the loop the inode and the block have been looked at. -/
def initrdFinddir (n : ℕ) (code : ReadBy.InitrdCode) (file : UInt32) (fresh : Buffer)
    (node name superblock : UInt32) : Prog (UInt32 × Buffer) := do
  let number ← peek fun mem => some (ReadBy.nodeInode mem node)
  let inode ← ReadBy.ext2InodeGet number superblock
  let block ← ext2InodeblockGet 0 inode superblock
  if node = 0 then pure (0, fresh)
  else do
    through inode
    let type ← load16 inode
    if type &&& 0x4000 = 0 ∨ block = 0 then pure (0, fresh)
    else loop (finddirTurn (fun ent => initrdFound code file fresh ent superblock) (0, fresh) block
      inode name) n 0

end Checked

/-! ### `vfs.c` -/

/-- `node->flag`. -/
def nodeFlag (mem : Mem) (node : UInt32) : UInt32 := read32 mem (node + 140)

/-- A call of one of the operations on a node. -/
inductive VfsCall
  | read (offset size : UInt32) (buffer : Option Buffer)
  | readdir (index entry : UInt32) (fresh : Buffer)
  | finddir (name : UInt32) (code : ReadBy.InitrdCode) (file : UInt32) (fresh : Buffer)

namespace VfsCall

open Prog

/-- The node has the function for the call, and is a directory where it has to be. -/
def Admits (mem : Mem) (node : UInt32) : VfsCall → Prop
  | read _ _ _ => read32 mem (node + 156) ≠ 0
  | readdir _ _ _ => nodeFlag mem node &&& 0x7 = 2 ∧ read32 mem (node + 172) ≠ 0
  | finddir _ _ _ _ => nodeFlag mem node &&& 0x7 = 2 ∧ read32 mem (node + 176) ≠ 0

instance (mem : Mem) (node : UInt32) : (call : VfsCall) → Decidable (call.Admits mem node)
  | read _ _ _ => inferInstanceAs (Decidable (_ ≠ _))
  | readdir _ _ _ => inferInstanceAs (Decidable (_ ∧ _))
  | finddir _ _ _ _ => inferInstanceAs (Decidable (_ ∧ _))

/-- What the function of the initrd returns. -/
def initrd (superblock node : UInt32) (n : ℕ) : VfsCall → Prog UInt32
  | read offset size buffer =>
    Checked.initrdRead n node offset size buffer superblock >>= fun r => pure r.1
  | readdir index entry fresh =>
    Checked.initrdReaddir n entry fresh node index superblock >>= fun r => pure r.1
  | finddir name code file fresh =>
    Checked.initrdFinddir n code file fresh node name superblock >>= fun r => pure r.1

/-- `vfs_read`, `vfs_readdir` and `vfs_finddir`, given `n` turns for the loop over the image. -/
def prog (superblock node : UInt32) (n : ℕ) (call : VfsCall) : Prog UInt32 := do
  let admitted ← peek fun mem => some (decide (call.Admits mem node))
  if admitted = true then call.initrd superblock node n else pure 0

/-- The name looked for is a string. -/
def NameIs (mem : Mem) (xs : List UInt8) : VfsCall → Prop
  | read _ _ _ => True
  | readdir _ _ _ => True
  | finddir name _ _ _ => StringAt mem name xs

end VfsCall

/-! ### The checks -/

section Checks

variable {mem : Mem} {inode superblock : UInt32}

theorem through_of_ne {p : UInt32} (h : p ≠ 0) : (Checked.through p mem).1 = some () := by
  rw [Checked.through, ite_val, if_neg h]
  rfl

theorem through_zero : (Checked.through 0 mem).1 = none := rfl

/-- A check before a program only adds a trap. -/
theorem through_refines {α : Type} {p q : Prog α} (a : UInt32) (h : Refines p q mem) :
    Refines (Checked.through a >>= fun _ => p) q mem := by
  intro b hb
  rw [bind_val] at hb
  obtain ⟨_, _, hb⟩ := Option.bind_eq_some_iff.1 hb
  exact h b hb

theorem checked_inodeblockGet_refines (block inode superblock : UInt32) :
    Refines (Checked.ext2InodeblockGet block inode superblock)
      (ReadBy.ext2InodeblockGet block inode superblock) mem := by
  refine Refines.ite (through_refines inode (Refines.refl _ mem))
    ((Refines.refl _ mem).bind fun _ => ?_)
  exact Refines.ite (through_refines inode (Refines.refl _ mem)) (Refines.refl _ mem)

theorem checked_direntryGet_refines (n : ℕ) (index inode superblock : UInt32) :
    Refines (Checked.ext2DirentryGet n index inode superblock)
      (ReadBy.ext2DirentryGet n index inode superblock) mem := by
  refine (checked_inodeblockGet_refines 0 inode superblock).bind fun block =>
    Refines.loop (fun s => ?_) n _
  refine Refines.ite (through_refines inode ((Refines.refl _ mem).bind fun size => ?_))
    (Refines.refl _ mem)
  refine Refines.ite (Refines.refl _ mem) ((Refines.refl _ mem).bind fun blocksize => ?_)
  exact Refines.ite ((checked_inodeblockGet_refines _ inode superblock).bind fun _ =>
    Refines.refl _ mem) (through_refines s.block (Refines.refl _ mem))

theorem checked_memcpyFrom_refines (block offset size : UInt32) (buffer : Buffer) :
    Refines (Checked.memcpyFrom block offset size buffer)
      (ReadBy.memcpyFrom (block + offset) size buffer) mem := by
  unfold Checked.memcpyFrom
  split
  · exact Refines.refl _ mem
  · exact through_refines block (Refines.refl _ mem)

theorem checked_read_refines (n : ℕ) (offset : UInt32) (buffer : Option Buffer)
    (size inode superblock : UInt32) :
    Refines (Checked.ext2Read n offset buffer size inode superblock)
      (ReadBy.ext2Read n offset buffer size inode superblock) mem := by
  cases buffer with
  | none => exact Refines.refl _ mem
  | some b =>
    refine Refines.ite (Refines.refl _ mem) ((Refines.refl _ mem).bind fun start => ?_)
    refine (Refines.loop (fun s => ?_) n _).bind fun _ => Refines.refl _ mem
    refine (checked_inodeblockGet_refines _ inode superblock).bind fun addr => ?_
    refine (Refines.refl _ mem).bind fun blocksize => Refines.ite ?_ ?_
    · exact (checked_memcpyFrom_refines _ _ _ _).bind fun _ => Refines.refl _ mem
    · refine (Refines.refl _ mem).bind fun blocksize => ?_
      exact (checked_memcpyFrom_refines _ _ _ _).bind fun _ => Refines.refl _ mem

theorem checked_readdir_refines (n : ℕ) (entry : UInt32) (fresh : Buffer)
    (node index superblock : UInt32) :
    Refines (Checked.initrdReaddir n entry fresh node index superblock)
      (ReadBy.initrdReaddir n entry fresh node index superblock) mem := by
  refine (Refines.refl _ mem).bind fun number => (Refines.refl _ mem).bind fun inode => ?_
  exact (checked_direntryGet_refines n index inode superblock).bind fun ent => Refines.refl _ mem

/-- An entry that has been found is treated as before, up to the trap. -/
theorem checked_found_refines (code : ReadBy.InitrdCode) (file : UInt32) (fresh : Buffer)
    (ent superblock : UInt32) :
    Refines (Checked.initrdFound code file fresh ent superblock)
      (ReadBy.initrdFound code file fresh ent superblock) mem := by
  intro r hr
  unfold Checked.initrdFound at hr
  rw [bind_val, load32_val, Option.bind_some, bind_val] at hr
  obtain ⟨inode, hinode, hr⟩ := Option.bind_eq_some_iff.1 hr
  rw [bind_val] at hr
  obtain ⟨length, hlength, hr⟩ := Option.bind_eq_some_iff.1 hr
  rw [ite_val] at hr
  by_cases hlong : 128 < length
  · rw [if_pos hlong] at hr
    rw [ReadBy.initrdFound, bind_val, load32_val, Option.bind_some, bind_val, hinode,
      Option.bind_some, bind_val, hlength, Option.bind_some, if_pos hlong]
    exact hr
  · rw [if_neg hlong, bind_val] at hr
    obtain ⟨_, _, hr⟩ := Option.bind_eq_some_iff.1 hr
    exact hr

theorem checked_finddir_refines (n : ℕ) (code : ReadBy.InitrdCode) (file : UInt32)
    (fresh : Buffer) (node name superblock : UInt32) :
    Refines (Checked.initrdFinddir n code file fresh node name superblock)
      (ReadBy.initrdFinddir n code file fresh node name superblock) mem := by
  refine (Refines.refl _ mem).bind fun number => (Refines.refl _ mem).bind fun inode => ?_
  refine (checked_inodeblockGet_refines 0 inode superblock).bind fun block => ?_
  refine Refines.ite (Refines.refl _ mem) (through_refines inode ?_)
  refine (Refines.refl _ mem).bind fun type => Refines.ite (Refines.refl _ mem) ?_
  refine Refines.loop (fun index => ?_) n 0
  refine (Refines.refl _ mem).bind fun size => Refines.ite ?_ (Refines.refl _ mem)
  refine (Refines.refl _ mem).bind fun matched => Refines.ite ?_ (Refines.refl _ mem)
  exact (checked_found_refines code file fresh _ superblock).bind fun r => Refines.refl _ mem

/-- With an inode the look at it changes nothing. -/
theorem checked_inodeblockGet_val (h : inode ≠ 0) (block superblock : UInt32) :
    (Checked.ext2InodeblockGet block inode superblock mem).1 =
      some (ext2InodeblockGet mem block inode superblock) := by
  rw [← inodeblockGet_val]
  simp only [Checked.ext2InodeblockGet, ReadBy.ext2InodeblockGet, bind_val, ite_val,
    through_of_ne h, Option.bind_some]

/-- Without one the first block cannot be asked for. -/
theorem checked_firstBlock_zero (superblock : UInt32) :
    (Checked.ext2InodeblockGet 0 0 superblock mem).1 = none := rfl

end Checks

/-! ### What may be missing -/

/-- The image has no such inode: there are fewer, or its group would lie behind the last one.
Number 0 counts as the last of all. -/
def InodeOutOfRange (mem : Mem) (superblock inode : UInt32) : Prop :=
  Superblock.inodeTotal mem superblock < inode ∨
    (Superblock.inodePerGroup mem superblock ≠ 0 ∧ Superblock.blockPerGroup mem superblock ≠ 0 ∧
      Superblock.blockTotal mem superblock / Superblock.blockPerGroup mem superblock <
        (inode - 1) / Superblock.inodePerGroup mem superblock)

/-- The node has an inode. -/
def HasInode (mem : Mem) (base node : UInt32) : Prop :=
  NoZeroDivisor mem (base + 1024) (ReadBy.nodeInode mem node) ∧
    ¬ InodeOutOfRange mem (base + 1024) (ReadBy.nodeInode mem node) ∧ dirSlot mem base node ≠ 0

/-- The node is a directory without a first block. -/
def NoFirstBlock (mem : Mem) (base node : UInt32) : Prop :=
  HasInode mem base node ∧ read16 mem (dirSlot mem base node) &&& 0xF000 = 0x4000 ∧
    Inode.block mem (dirSlot mem base node) 0 = 0

/-- The entry that the walk for a name takes has a number without an inode. -/
def MatchesNoInode (mem : Mem) (base node length : UInt32) : Prop :=
  HasInode mem base node ∧ WalkStarts mem base node ∧
    ∃ index, ComesTo mem base node length index ∧
      index < Inode.size mem (dirSlot mem base node) ∧
      InodeOutOfRange mem (base + 1024) (read32 mem (dirBlock mem base node + index))

namespace VfsCall

/-- Something the call asks for is missing; `length` is that of the name. -/
def Misses (mem : Mem) (base node length : UInt32) : VfsCall → Prop
  | read _ _ _ | readdir _ _ _ =>
    InodeOutOfRange mem (base + 1024) (ReadBy.nodeInode mem node) ∨ NoFirstBlock mem base node
  | finddir _ _ _ _ =>
    InodeOutOfRange mem (base + 1024) (ReadBy.nodeInode mem node) ∨ NoFirstBlock mem base node ∨
      MatchesNoInode mem base node length

/-- The call is turned away by `vfs.c`, or what is missing is noticed in time. -/
def Notices (mem : Mem) (base node length : UInt32) (call : VfsCall) : Prop :=
  ¬ call.Admits mem node ∨ match call with
  | read offset size buffer =>
    InodeOutOfRange mem (base + 1024) (ReadBy.nodeInode mem node) ∨ buffer = none ∨
      base + 1024 = 0 ∨
      (size = 0 ∧ (offset = 0 ∨ ext2BlocksizeGet mem (base + 1024) ≠ 0))
  | readdir index _ _ => NoFirstBlock mem base node ∧ index = 0
  | finddir _ _ _ _ =>
    NoFirstBlock mem base node ∨
      (¬ InodeOutOfRange mem (base + 1024) (ReadBy.nodeInode mem node) ∧
        ∃ index, ComesTo mem base node length index ∧
          ∃ ys, StringAt mem (dirBlock mem base node + index + 8) ys ∧ 128 < ys.length)

end VfsCall

section Calls

variable {mem : Mem} {base node name offset size index entry file superblock : UInt32}
  {code : ReadBy.InitrdCode} {fresh : Buffer} {buffer : Option Buffer} {xs : List UInt8}

theorem InodeOutOfRange.get {n : UInt32} (h : InodeOutOfRange mem superblock n) :
    ext2InodeGet mem n superblock = some 0 := by
  rcases h with htotal | ⟨hinodes, hblocks, hgroup⟩
  · rw [inodeGet_of_noZeroDivisor (Or.inl htotal), inodeSlot]
    simp only [if_pos htotal]
  · rw [inodeGet_of_noZeroDivisor (Or.inr ⟨hinodes, hblocks⟩), inodeSlot]
    simp only [if_pos hgroup, ite_self]

theorem HasInode.get (h : HasInode mem base node) :
    ext2InodeGet mem (ReadBy.nodeInode mem node) (base + 1024) = some (dirSlot mem base node) :=
  inodeGet_of_noZeroDivisor h.1

theorem NoFirstBlock.block (h : NoFirstBlock mem base node) : dirBlock mem base node = 0 := by
  rw [dirBlock, ext2InodeblockGet, if_pos (by decide), if_pos h.2.2]

/-- What `ext2_inode_get` returns of the node's inode, and what is read of its first block. -/
theorem HasInode.get_val (h : HasInode mem base node) :
    (ReadBy.ext2InodeGet (ReadBy.nodeInode mem node) (base + 1024) mem).1 =
      some (dirSlot mem base node) := by
  rw [inodeGet_val, h.get]

theorem InodeOutOfRange.get_val {n : UInt32} (h : InodeOutOfRange mem superblock n) :
    (ReadBy.ext2InodeGet n superblock mem).1 = some 0 := by
  rw [inodeGet_val, h.get]

theorem NoFirstBlock.block_val (h : NoFirstBlock mem base node) :
    (Checked.ext2InodeblockGet 0 (dirSlot mem base node) (base + 1024) mem).1 = some 0 := by
  rw [checked_inodeblockGet_val h.1.2.2, ← dirBlock, h.block]

/-! ### `vfs_read` -/

/-- Asked for no bytes, `ext2_read` reads none; asked for some, it answers with their number. -/
theorem checked_ext2Read_zero {inode : UInt32} (hinode : inode ≠ 0) :
    (∃ b, Yields (fun n => Checked.ext2Read n offset buffer size inode superblock) mem (0, b)) ↔
      buffer = none ∨ superblock = 0 ∨
        (size = 0 ∧ (offset = 0 ∨ ext2BlocksizeGet mem superblock ≠ 0)) := by
  cases buffer with
  | none => exact iff_of_true ⟨none, 0, rfl⟩ (Or.inl rfl)
  | some b =>
    simp only [Checked.ext2Read, reduceCtorEq, false_or]
    by_cases hsuper : superblock = 0
    · simp only [hsuper, or_true, if_true, true_or, iff_true]
      exact ⟨some b, 0, rfl⟩
    · simp only [hinode, hsuper, or_self, if_false, false_or]
      constructor
      · rintro ⟨r, n, hn⟩
        rw [bind_val] at hn
        obtain ⟨start, hstart, hn⟩ := Option.bind_eq_some_iff.1 hn
        rw [bind_val] at hn
        obtain ⟨b', _, hb'⟩ := Option.bind_eq_some_iff.1 hn
        refine ⟨(Prod.mk.inj (Option.some.inj hb')).1, ?_⟩
        by_contra hdiv
        obtain ⟨hoff, hbs⟩ := not_or.1 hdiv
        rw [readStart_val, if_pos hoff, if_pos (not_not.1 hbs)] at hstart
        cases hstart
      · rintro ⟨rfl, hdiv⟩
        obtain ⟨start, hstart⟩ : ∃ start,
            (ReadBy.ext2ReadStart offset superblock mem).1 = some start := by
          rw [readStart_val]
          by_cases hoff : offset = 0
          · exact ⟨_, if_neg (not_not.2 hoff)⟩
          · exact ⟨_, by rw [if_pos hoff, if_neg (hdiv.resolve_left hoff)]⟩
        have hstep : (Checked.ext2ReadStep inode superblock ⟨0, start.1, start.2, b⟩ mem).1 =
            some (.inr (memcpyFrom mem
              (ext2InodeblockGet mem start.1 inode superblock + start.2) 0 b)) := by
          have hle : (0 : UInt32) ≤ ext2BlocksizeGet mem superblock - start.2 := UInt32.zero_le
          simp only [Checked.ext2ReadStep, bind_val, checked_inodeblockGet_val hinode,
            blocksize_val, Option.bind_some, ite_val, if_pos hle, Checked.memcpyFrom, if_true,
            memcpyFrom_val, pure_val]
        refine ⟨some (memcpyFrom mem (ext2InodeblockGet mem start.1 inode superblock + start.2) 0 b),
          1, ?_⟩
        rw [bind_val, hstart, Option.bind_some, bind_val, loop_succ, bind_val, hstep]
        rfl

theorem read_zero_iff (h : HasInode mem base node) :
    Yields (fun n => VfsCall.initrd (base + 1024) node n (.read offset size buffer)) mem 0 ↔
      buffer = none ∨ base + 1024 = 0 ∨
        (size = 0 ∧ (offset = 0 ∨ ext2BlocksizeGet mem (base + 1024) ≠ 0)) := by
  rw [← checked_ext2Read_zero h.2.2]
  simp only [VfsCall.initrd, Checked.initrdRead]
  rw [yields_bind]
  have hget := h.get_val
  constructor
  · rintro ⟨r, hr, hzero⟩
    rw [yields_bind_of (a := ReadBy.nodeInode mem node) rfl, yields_bind_of hget] at hr
    obtain ⟨first, second⟩ := r
    obtain rfl : first = 0 := Option.some.inj hzero
    exact ⟨second, hr⟩
  · rintro ⟨b, hb⟩
    refine ⟨(0, b), ?_, rfl⟩
    rw [yields_bind_of (a := ReadBy.nodeInode mem node) rfl, yields_bind_of hget]
    exact hb

theorem read_zero_of_outOfRange
    (h : InodeOutOfRange mem superblock (ReadBy.nodeInode mem node)) :
    Yields (fun n => VfsCall.initrd superblock node n (.read offset size buffer)) mem 0 := by
  simp only [VfsCall.initrd, Checked.initrdRead]
  rw [yields_bind]
  have hget := h.get_val
  refine ⟨(0, buffer), ?_, rfl⟩
  rw [yields_bind_of (a := ReadBy.nodeInode mem node) rfl, yields_bind_of hget]
  cases buffer with
  | none => exact ⟨0, rfl⟩
  | some b => exact ⟨0, by simp only [Checked.ext2Read, true_or, if_true]; rfl⟩

/-! ### `vfs_readdir` -/

theorem checked_direntryGet_val (n : ℕ) (inode : UInt32) :
    (Checked.ext2DirentryGet n index inode superblock mem).1 =
      (Checked.ext2InodeblockGet 0 inode superblock mem).1.bind fun block =>
        (Prog.loop (Checked.ext2DirentryStep index inode superblock) n ⟨0, block, 0, 0⟩ mem).1 :=
  bind_val

/-- Without an inode `ext2_direntry_get` comes to the trap at once. -/
theorem not_yields_readdir_of_outOfRange
    (h : InodeOutOfRange mem superblock (ReadBy.nodeInode mem node)) :
    ¬ Yields (fun n => VfsCall.initrd superblock node n (.readdir index entry fresh)) mem 0 := by
  simp only [VfsCall.initrd, Checked.initrdReaddir]
  rw [yields_bind]
  rintro ⟨r, hr, _⟩
  have hget := h.get_val
  rw [yields_bind_of (a := ReadBy.nodeInode mem node) rfl, yields_bind_of hget] at hr
  obtain ⟨n, hn⟩ := hr
  rw [bind_val, checked_direntryGet_val, checked_firstBlock_zero] at hn
  cases hn

/-- Without a first block there is no entry to go past: the walk traps, or with empty blocks it goes
from one to the next for ever. -/
theorem checked_direntry_stuck {inode : UInt32} (hinode : inode ≠ 0) (hindex : index ≠ 0) (n : ℕ) :
    ∀ s : ReadBy.DirCursor, s.offset = 0 → s.i = 0 →
      (s.block = 0 ∨ ext2BlocksizeGet mem superblock = 0) →
      (Prog.loop (Checked.ext2DirentryStep index inode superblock) n s mem).1 = none := by
  induction n with
  | zero => exact fun s _ _ _ => rfl
  | succ n ih =>
    intro s hoffset hi hblock
    have hlt : s.i < index := by
      rw [hi, UInt32.lt_iff_toNat_lt]
      exact toNat_pos hindex
    have hsize : ¬ read32 mem (inode + 4) < s.offset := by
      rw [hoffset]
      exact UInt32.not_lt_zero
    rw [loop_succ, bind_val]
    simp only [Checked.ext2DirentryStep, if_pos hlt, bind_val, through_of_ne hinode, load32_val,
      Option.bind_some, ite_val, if_neg hsize, blocksize_val]
    by_cases hbs : ext2BlocksizeGet mem superblock = 0
    · rw [if_pos (by rw [hbs]; exact UInt32.zero_le), checked_inodeblockGet_val hinode]
      exact ih _ hoffset hi (Or.inr hbs)
    · have hle : ¬ ext2BlocksizeGet mem superblock ≤ s.offset := by
        rw [hoffset, UInt32.le_zero_iff]
        exact hbs
      rw [if_neg hle, hblock.resolve_right hbs, through_zero]
      rfl

theorem readdir_zero_iff (h : NoFirstBlock mem base node) :
    Yields (fun n => VfsCall.initrd (base + 1024) node n (.readdir index entry fresh)) mem 0 ↔
      index = 0 := by
  have hinode := h.1.2.2
  have hget := h.1.get_val
  have hblock := h.block_val
  simp only [VfsCall.initrd, Checked.initrdReaddir]
  rw [yields_bind]
  constructor
  · rintro ⟨r, hr, _⟩
    rw [yields_bind_of (a := ReadBy.nodeInode mem node) rfl, yields_bind_of hget] at hr
    obtain ⟨n, hn⟩ := hr
    by_contra hindex
    rw [bind_val, checked_direntryGet_val, hblock, Option.bind_some,
      checked_direntry_stuck hinode hindex n _ rfl rfl (Or.inl rfl)] at hn
    cases hn
  · rintro rfl
    refine ⟨(0, fresh), ?_, rfl⟩
    rw [yields_bind_of (a := ReadBy.nodeInode mem node) rfl, yields_bind_of hget]
    have hent : (Checked.ext2DirentryGet 1 0 (dirSlot mem base node) (base + 1024) mem).1 =
        some 0 := by
      rw [checked_direntryGet_val, hblock]
      rfl
    refine ⟨1, ?_⟩
    rw [bind_val, hent, Option.bind_some, if_pos (Or.inr rfl)]
    rfl

/-! ### `vfs_finddir` -/

theorem not_yields_finddir_of_outOfRange
    (h : InodeOutOfRange mem superblock (ReadBy.nodeInode mem node)) :
    ¬ Yields (fun n => VfsCall.initrd superblock node n (.finddir name code file fresh)) mem 0 := by
  simp only [VfsCall.initrd, Checked.initrdFinddir]
  rw [yields_bind]
  rintro ⟨r, hr, _⟩
  have hget := h.get_val
  rw [yields_bind_of (a := ReadBy.nodeInode mem node) rfl, yields_bind_of hget] at hr
  exact not_yields_bind (checked_firstBlock_zero superblock) hr

/-- The missing block is noticed before the first record. -/
theorem finddir_zero_of_noFirstBlock (h : NoFirstBlock mem base node) :
    Yields (fun n => VfsCall.initrd (base + 1024) node n (.finddir name code file fresh)) mem 0 := by
  have hinode := h.1.2.2
  have hget := h.1.get_val
  have hblock := h.block_val
  simp only [VfsCall.initrd, Checked.initrdFinddir]
  rw [yields_bind]
  refine ⟨(0, fresh), ?_, rfl⟩
  rw [yields_bind_of (a := ReadBy.nodeInode mem node) rfl, yields_bind_of hget, yields_bind_of hblock]
  by_cases hnode : node = 0
  · simp only [if_pos hnode]
    exact ⟨0, rfl⟩
  · simp only [if_neg hnode]
    rw [yields_bind_of (through_of_ne hinode), yields_bind_of (load16_val _)]
    simp only [or_true, if_true]
    exact ⟨0, rfl⟩

/-- With no inode for the entry, its name decides: it is looked at before the inode is. -/
theorem checked_found_zero (code : ReadBy.InitrdCode) (file : UInt32) (fresh : Buffer)
    {ent : UInt32} {ys : List UInt8} (hent : StringAt mem (ent + 8) ys)
    (h : InodeOutOfRange mem superblock (read32 mem ent)) :
    (Checked.initrdFound code file fresh ent superblock mem).1 =
      if 128 < ys.length then some (0, fresh) else none := by
  have hlen : (128 : UInt32) < UInt32.ofNat ys.length ↔ 128 < ys.length := hent.lt_length 128
  simp only [Checked.initrdFound, bind_val, load32_val, inodeGet_val, h.get, strlen_val hent,
    Option.bind_some, ite_val, through_zero, pure_val, Option.bind_none]
  by_cases hlong : 128 < ys.length
  · rw [if_pos (hlen.2 hlong), if_pos hlong]
  · rw [if_neg fun h => hlong (hlen.1 h), if_neg hlong]

theorem finddir_zero_iff (hname : StringAt mem name xs)
    (h : MatchesNoInode mem base node (UInt32.ofNat xs.length)) :
    Yields (fun n => VfsCall.initrd (base + 1024) node n (.finddir name code file fresh)) mem 0 ↔
      ∃ i, ComesTo mem base node (UInt32.ofNat xs.length) i ∧
        ∃ ys, StringAt mem (dirBlock mem base node + i + 8) ys ∧ 128 < ys.length := by
  obtain ⟨hhas, hstart, i, hto, hin, hnone⟩ := h
  have hinode := hhas.2.2
  have hget := hhas.get_val
  have hblock : (Checked.ext2InodeblockGet 0 (dirSlot mem base node) (base + 1024) mem).1 =
      some (dirBlock mem base node) := checked_inodeblockGet_val hinode 0 _
  obtain ⟨ys, hys⟩ := exists_stringAt hname.terminator (dirBlock mem base node + i + 8)
  have hloop : ∀ r, Yields (fun n => Checked.initrdFinddir n code file fresh node name (base + 1024))
      mem r ↔ (if 128 < ys.length then some (0, fresh) else none) = some r := by
    intro r
    rw [← checked_found_zero code file fresh hys hnone]
    unfold Checked.initrdFinddir
    rw [yields_bind_of (a := ReadBy.nodeInode mem node) rfl, yields_bind_of hget,
      yields_bind_of hblock]
    simp only [if_neg hstart.1]
    rw [yields_bind_of (through_of_ne hinode), yields_bind_of (load16_val _)]
    simp only [if_neg (not_or.2 hstart.2)]
    rw [(finddirTurn_turn _ _ hname _ _).yields_iff]
    constructor
    · rintro ⟨k, hbefore, hstop, hr⟩
      obtain rfl := hto.unique ⟨k, rfl, hbefore, hstop⟩
      rwa [if_pos (show (nextRecord mem (dirBlock mem base node))^[k] 0 < _ from hin)] at hr
    · intro hr
      obtain ⟨k, rfl, hbefore, hstop⟩ := hto
      refine ⟨k, hbefore, hstop, ?_⟩
      rwa [if_pos (show (nextRecord mem (dirBlock mem base node))^[k] 0 < _ from hin)]
  simp only [VfsCall.initrd]
  rw [yields_bind]
  simp only [hloop]
  constructor
  · rintro ⟨r, hr, _⟩
    by_cases hlong : 128 < ys.length
    · exact ⟨i, hto, ys, hys, hlong⟩
    · rw [if_neg hlong] at hr
      cases hr
  · rintro ⟨i', hto', ys', hys', hlong⟩
    obtain rfl := hto.unique hto'
    obtain rfl := hys.unique hys'
    exact ⟨(0, fresh), if_pos hlong, rfl⟩

/-! ### All three -/

/-- A call that is turned away returns 0. -/
theorem prog_zero_iff (superblock : UInt32) (call : VfsCall) :
    Yields (fun n => call.prog superblock node n) mem 0 ↔
      ¬ call.Admits mem node ∨ Yields (fun n => call.initrd superblock node n) mem 0 := by
  unfold VfsCall.prog
  rw [yields_bind_of (a := decide (call.Admits mem node)) rfl]
  by_cases hcall : call.Admits mem node
  · simp only [hcall, decide_true, if_true, not_true_eq_false, false_or]
  · simp only [hcall, decide_false, Bool.false_eq_true, if_false, not_false_eq_true, true_or,
      iff_true]
    exact ⟨0, rfl⟩

/-- **Missing inodes, blocks and entries.**  A call that misses something returns 0, without reading
through a null pointer, exactly if it is turned away or notices in time. -/
theorem vfs_zero_iff (call : VfsCall) (hname : call.NameIs mem xs)
    (hmiss : call.Misses mem base node (UInt32.ofNat xs.length)) :
    Yields (fun n => call.prog (base + 1024) node n) mem 0 ↔
      call.Notices mem base node (UInt32.ofNat xs.length) := by
  rw [prog_zero_iff]
  refine or_congr_right ?_
  cases call with
  | read offset size buffer =>
    rcases hmiss with hout | hblock
    · exact iff_of_true (read_zero_of_outOfRange hout) (Or.inl hout)
    · rw [read_zero_iff hblock.1]
      exact (or_iff_right hblock.1.2.1).symm
  | readdir index entry fresh =>
    rcases hmiss with hout | hblock
    · exact iff_of_false (not_yields_readdir_of_outOfRange hout) fun h => h.1.1.2.1 hout
    · rw [readdir_zero_iff hblock]
      exact (and_iff_right hblock).symm
  | finddir name code file fresh =>
    rcases hmiss with hout | hblock | hmatch
    · refine iff_of_false (not_yields_finddir_of_outOfRange hout) ?_
      rintro (hblock | ⟨hin, _⟩)
      · exact hblock.1.2.1 hout
      · exact hin hout
    · exact iff_of_true (finddir_zero_of_noFirstBlock hblock) (Or.inl hblock)
    · rw [finddir_zero_iff hname hmatch]
      have hblock : ¬ NoFirstBlock mem base node := fun h => hmatch.2.1.2.2 h.block
      exact ((or_iff_right hblock).trans (and_iff_right hmatch.1.2.1)).symm

end Calls

/-- `image256` with a node at 0x300000: a directory with inode number 1000, and with functions. -/
def imageLostNode : Mem :=
  write32 (write32 (write32 (write32 image256 0x30008C 2) 0x300090 1000) 0x30009C 1) 0x3000AC 1

theorem imageLostNode_outOfRange :
    InodeOutOfRange imageLostNode (0x100000 + 1024) (ReadBy.nodeInode imageLostNode 0x300000) :=
  Or.inl (by decide)

/-- `vfs_read` notices. -/
theorem vfs_read_lostNode :
    Yields (fun n => (VfsCall.read 0 16 (some fun _ => 0)).prog (0x100000 + 1024) 0x300000 n)
      imageLostNode 0 :=
  (vfs_zero_iff (.read 0 16 (some fun _ => 0))
    (show VfsCall.NameIs imageLostNode [] (.read 0 16 (some fun _ => 0)) from trivial)
    (Or.inl imageLostNode_outOfRange)).2 (Or.inr (Or.inl imageLostNode_outOfRange))

/-- `vfs_readdir` does not. -/
theorem vfs_readdir_lostNode :
    (VfsCall.readdir 0 0x400000 fun _ => 0).Misses imageLostNode 0x100000 0x300000 0 ∧
      ¬ Yields (fun n => (VfsCall.readdir 0 0x400000 fun _ => 0).prog (0x100000 + 1024) 0x300000 n)
        imageLostNode 0 := by
  refine ⟨Or.inl imageLostNode_outOfRange, ?_⟩
  rw [prog_zero_iff]
  rintro (hrefused | hyields)
  · exact hrefused (by decide)
  · exact not_yields_readdir_of_outOfRange imageLostNode_outOfRange hyields

end CometOS
