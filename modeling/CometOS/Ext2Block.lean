import CometOS.Ext2Read
import CometOS.Ext2Return

/-!
# The blocks of a file

`ext2_inodeblock_get` against the pointers of the format, in what it returns and in what it reads.
A direct pointer of 0 is a hole.  The pointer to the indirect block is not asked for 0 before it is
followed, and block 0 is the superblock: of a file that has holes only behind its direct blocks, words
of the superblock are taken for pointers.
-/

namespace CometOS

open ByteMemory Reader Word32

/-! ### The lookup -/

/-- Where logical block `b` of the file is, 0 for a hole and for a block the pointers do not reach. -/
def blockAddr (mem : Mem) (base inode b : UInt32) : UInt32 :=
  if b.toNat < 12 + (ext2BlocksizeGet mem (base + 1024)).toNat / 4 then
    if fileBlock mem base inode b = 0 then 0
    else base + ext2BlocksizeGet mem (base + 1024) * fileBlock mem base inode b
  else 0

/-- The block size is read. -/
def blocksizeRead (base : UInt32) : Access := ⟨base + 1024 + 24, 4⟩

/-- The reads for the block a pointer names: the pointer, and if it is not 0 it again and the block
size. -/
def pointerReads (mem : Mem) (base place : UInt32) : List Access :=
  ⟨place, 4⟩ :: if read32 mem place = 0 then [] else [⟨place, 4⟩, blocksizeRead base]

/-- The reads of a lookup.  A table of pointers is read in one case only, and it is the inode's
indirect block. -/
def blockReads (mem : Mem) (base inode b : UInt32) : List Access :=
  if b.toNat < 12 then pointerReads mem base (inode + 40 + 4 * b)
  else if b.toNat < 12 + (ext2BlocksizeGet mem (base + 1024)).toNat / 4 then
    blocksizeRead base :: ⟨inode + 40 + 4 * 12, 4⟩ ::
      if Inode.block mem inode 12 = 0 then []
      else blocksizeRead base :: pointerReads mem base
        (base + ext2BlocksizeGet mem (base + 1024) * Inode.block mem inode 12 + 4 * (b - 12))
  else [blocksizeRead base]

/-- The lookup of a block gives its place and reads what it should. -/
structure InodeblockOk (mem : Mem) (base inode b : UInt32) : Prop where
  value : ext2InodeblockGet mem b inode (base + 1024) = blockAddr mem base inode b
  reads : (ReadBy.ext2InodeblockGet b inode (base + 1024) mem).2 = blockReads mem base inode b

/-- The block would have its pointer in the indirect block, and there is none. -/
def NoIndirect (mem : Mem) (base inode b : UInt32) : Prop :=
  12 ≤ b.toNat ∧ b.toNat < 12 + (ext2BlocksizeGet mem (base + 1024)).toNat / 4 ∧
    Inode.block mem inode 12 = 0

/-! ### What is read -/

section Reads

variable {mem : Mem} {base : UInt32}

theorem blockGet_reads {block : UInt32} (h : block ≠ 0) :
    (ReadBy.ext2BlockGet block (base + 1024) mem).2 = [blocksizeRead base] := by
  have hle : ¬ block ≤ 0 := by
    rw [UInt32.le_iff_toNat_le, show (0 : UInt32).toNat = 0 from rfl]
    have hpos := toNat_pos h
    omega
  unfold ReadBy.ext2BlockGet
  rw [if_neg hle]
  rfl

/-- A pointer is read and followed. -/
theorem pointer_reads (place : UInt32) :
    ((do
      let pointer ← Prog.load32 place
      if pointer = 0 then pure 0
      else do
        let pointer ← Prog.load32 place
        ReadBy.ext2BlockGet pointer (base + 1024) : Prog UInt32) mem).2 =
      pointerReads mem base place := by
  rw [bind_log_of (load32_val place), pointerReads]
  by_cases hzero : read32 mem place = 0
  · rw [if_pos hzero, if_pos hzero]
    rfl
  · rw [if_neg hzero, if_neg hzero, bind_log_of (load32_val place), blockGet_reads hzero]
    rfl

end Reads

/-! ### The cases -/

section Cases

variable {mem : Mem} {base inode b : UInt32}

theorem inodeblock_direct (h : b.toNat < 12) : InodeblockOk mem base inode b := by
  have hlt : b < 12 := h
  have hreach : b.toNat < 12 + (ext2BlocksizeGet mem (base + 1024)).toNat / 4 := by omega
  refine ⟨?_, ?_⟩
  · rw [ext2InodeblockGet, blockAddr, fileBlock, if_pos hreach, if_pos hlt, if_pos hlt]
    by_cases hzero : Inode.block mem inode b = 0
    · rw [if_pos hzero, if_pos hzero]
    · rw [if_neg hzero, if_neg hzero, ext2BlockGet_of_ne hzero]
  · rw [blockReads, if_pos h, ← pointer_reads, ReadBy.ext2InodeblockGet, if_pos hlt]

theorem inodeblock_behind (h : 12 + (ext2BlocksizeGet mem (base + 1024)).toNat / 4 ≤ b.toNat) :
    InodeblockOk mem base inode b := by
  have hdirect : ¬ b < 12 := by
    rw [UInt32.lt_iff_toNat_lt, show (12 : UInt32).toNat = 12 from rfl]
    omega
  have hreach : ¬ b < 12 + ext2BlocksizeGet mem (base + 1024) / 4 := by
    rw [lt_reach_iff]
    omega
  refine ⟨?_, ?_⟩
  · rw [ext2InodeblockGet, blockAddr, if_neg hdirect, if_neg hreach, if_neg (by omega)]
  · rw [blockReads, if_neg (by omega), if_neg (by omega), ReadBy.ext2InodeblockGet,
      if_neg hdirect, bind_log_of (blocksize_val (base + 1024)), if_neg hreach]
    rfl

/-- The reads behind the direct blocks, whatever the pointer to the indirect block is. -/
theorem indirect_reads (hlo : 12 ≤ b.toNat)
    (hhi : b.toNat < 12 + (ext2BlocksizeGet mem (base + 1024)).toNat / 4) :
    (ReadBy.ext2InodeblockGet b inode (base + 1024) mem).2 =
      blocksizeRead base :: ⟨inode + 40 + 4 * 12, 4⟩ ::
        ((ReadBy.ext2BlockGet (Inode.block mem inode 12) (base + 1024) mem).2 ++
          pointerReads mem base
            (ext2BlockGet mem (Inode.block mem inode 12) (base + 1024) + 4 * (b - 12))) := by
  have hdirect : ¬ b < 12 := by
    rw [UInt32.lt_iff_toNat_lt, show (12 : UInt32).toNat = 12 from rfl]
    omega
  rw [ReadBy.ext2InodeblockGet, if_neg hdirect, bind_log_of (blocksize_val (base + 1024)),
    if_pos ((lt_reach_iff mem base b).2 hhi), bind_log_of (load32_val (inode + 40 + 4 * 12)),
    bind_log_of (blockGet_val _ _), pointer_reads]
  rfl

theorem inodeblock_indirect (hlo : 12 ≤ b.toNat)
    (hhi : b.toNat < 12 + (ext2BlocksizeGet mem (base + 1024)).toNat / 4)
    (h : Inode.block mem inode 12 ≠ 0) : InodeblockOk mem base inode b := by
  have hdirect : ¬ b < 12 := by
    rw [UInt32.lt_iff_toNat_lt, show (12 : UInt32).toNat = 12 from rfl]
    omega
  refine ⟨?_, ?_⟩
  · rw [ext2InodeblockGet, blockAddr, fileBlock, if_neg hdirect, if_neg hdirect, if_neg h,
      if_pos ((lt_reach_iff mem base b).2 hhi), if_pos hhi]
    simp only [ext2BlockGet_of_ne h]
    split
    · rfl
    · next hentry => rw [ext2BlockGet_of_ne hentry]
  · rw [indirect_reads hlo hhi, blockGet_reads h, ext2BlockGet_of_ne h, blockReads,
      if_neg (by omega), if_pos hhi, if_neg h]
    rfl

/-- Without an indirect block a word of the superblock is read as a pointer. -/
theorem NoIndirect.not_ok (h : NoIndirect mem base inode b) : ¬ InodeblockOk mem base inode b := by
  obtain ⟨hlo, hhi, hzero⟩ := h
  intro hok
  have hreads := hok.reads
  rw [indirect_reads hlo hhi, blockReads, if_neg (by omega), if_pos hhi, if_pos hzero,
    hzero, pointerReads] at hreads
  have hlength := congrArg List.length hreads
  simp only [List.length_cons, List.length_append, List.length_nil] at hlength
  omega

end Cases

/-- **The blocks of a file.**  For every inode and every logical block the lookup gives the place that
the format gives and reads nothing else as a table, exactly when it is not sent to an indirect block
that the file does not have. -/
theorem inodeblock_iff (mem : Mem) (base inode b : UInt32) :
    InodeblockOk mem base inode b ↔ ¬ NoIndirect mem base inode b := by
  constructor
  · intro hok h
    exact h.not_ok hok
  · intro h
    rcases Nat.lt_or_ge b.toNat 12 with hlt | hlo
    · exact inodeblock_direct hlt
    · rcases Nat.lt_or_ge b.toNat (12 + (ext2BlocksizeGet mem (base + 1024)).toNat / 4)
        with hhi | hbehind
      · exact inodeblock_indirect hlo hhi fun hzero => h ⟨hlo, hhi, hzero⟩
      · exact inodeblock_behind hbehind

/-- **A hole behind the direct blocks**: the file of `image256` has two blocks and no others, and its
block 12 is looked up in the superblock, whose first word is the number of inodes. -/
theorem inodeblock_fails_on_hole : ¬ InodeblockOk image256 0x100000 0x101500 12 := by
  intro hok
  have hvalue := hok.value
  revert hvalue
  decide

end CometOS
