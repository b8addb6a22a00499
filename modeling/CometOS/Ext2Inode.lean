import CometOS.Ext2

/-!
# Finding an inode

`ext2_inode_get` on a mounted image, against the place the format gives the inode.  The reader takes
the inode table's block number from a word at a distance of its own from the superblock, and the
inode size it uses is the one that mounting has written.
-/

namespace CometOS

open ByteMemory Loop Word32

/-! ### Mounting -/

/-- The memory after `ext2_superblock_get`. -/
def mounted (mem : Mem) (base : UInt32) : Mem := write16 mem (base + 1024 + 88) 128

theorem ext2SuperblockGet_eq {mem : Mem} {base : UInt32}
    (h : Superblock.magic mem (base + 1024) = 0xEF53) :
    ext2SuperblockGet mem base = some (base + 1024, mounted mem base) := by
  rw [ext2SuperblockGet, ext2SuperblockValidate, h]
  rfl

theorem mounted_field (mem : Mem) (base k : UInt32) (h : Apart 88 2 k 4) :
    read32 (mounted mem base) (base + 1024 + k) = read32 mem (base + 1024 + k) :=
  read32_write16_of_apart mem 128 ((apart_add _).2 h)

theorem mounted_inodeTotal (mem : Mem) (base : UInt32) :
    Superblock.inodeTotal (mounted mem base) (base + 1024) =
      Superblock.inodeTotal mem (base + 1024) := by
  have h := mounted_field mem base 0 (by decide)
  rwa [UInt32.add_zero] at h

theorem mounted_blockTotal (mem : Mem) (base : UInt32) :
    Superblock.blockTotal (mounted mem base) (base + 1024) =
      Superblock.blockTotal mem (base + 1024) :=
  mounted_field mem base 4 (by decide)

theorem mounted_blockPerGroup (mem : Mem) (base : UInt32) :
    Superblock.blockPerGroup (mounted mem base) (base + 1024) =
      Superblock.blockPerGroup mem (base + 1024) :=
  mounted_field mem base 32 (by decide)

theorem mounted_inodePerGroup (mem : Mem) (base : UInt32) :
    Superblock.inodePerGroup (mounted mem base) (base + 1024) =
      Superblock.inodePerGroup mem (base + 1024) :=
  mounted_field mem base 40 (by decide)

theorem mounted_inodeSize (mem : Mem) (base : UInt32) :
    Superblock.inodeSize (mounted mem base) (base + 1024) = 128 :=
  read16_write16_same mem _ 128

theorem mounted_blocksize (mem : Mem) (base : UInt32) :
    ext2BlocksizeGet (mounted mem base) (base + 1024) = ext2BlocksizeGet mem (base + 1024) := by
  have h : Superblock.blockSizeLog (mounted mem base) (base + 1024) =
      Superblock.blockSizeLog mem (base + 1024) := mounted_field mem base 24 (by decide)
  rw [ext2BlocksizeGet, ext2BlocksizeGet, h]

theorem mounted_bgDes (mem : Mem) (base g : UInt32) :
    ext2BgDesGet (mounted mem base) g (base + 1024) = ext2BgDesGet mem g (base + 1024) := by
  rw [ext2BgDesGet, ext2BgDesGet, ext2BlockgroupGet, ext2BlockgroupGet, mounted_blocksize,
    mounted_blockPerGroup]

/-! ### The sizes of a well-formed image -/

/-- The three block sizes, each with the block of the superblock that goes with it. -/
theorem Ext2Image.blocksize {mem : Mem} {base : UInt32} (wf : Ext2Image mem base) :
    (ext2BlocksizeGet mem (base + 1024) = 1024 ∧
        Superblock.blockSuperblockIndex mem (base + 1024) = 1) ∨
      (ext2BlocksizeGet mem (base + 1024) = 2048 ∧
        Superblock.blockSuperblockIndex mem (base + 1024) = 0) ∨
      (ext2BlocksizeGet mem (base + 1024) = 4096 ∧
        Superblock.blockSuperblockIndex mem (base + 1024) = 0) := by
  have hlog := wf.log
  have hfirst := wf.first
  rw [ext2BlocksizeGet]
  generalize Superblock.blockSizeLog mem (base + 1024) = log at hlog hfirst ⊢
  have hcases : log = 0 ∨ log = 1 ∨ log = 2 := by
    rcases (by omega : log.toNat = 0 ∨ log.toNat = 1 ∨ log.toNat = 2) with h | h | h
    · exact Or.inl (eq_of_toNat h)
    · exact Or.inr (Or.inl (eq_of_toNat h))
    · exact Or.inr (Or.inr (eq_of_toNat h))
  rcases hcases with rfl | rfl | rfl
  · exact Or.inl ⟨rfl, hfirst⟩
  · exact Or.inr (Or.inl ⟨rfl, hfirst⟩)
  · exact Or.inr (Or.inr ⟨rfl, hfirst⟩)

/-- The same in natural numbers. -/
theorem Ext2Image.blocksize_toNat {mem : Mem} {base : UInt32} (wf : Ext2Image mem base) :
    ((ext2BlocksizeGet mem (base + 1024)).toNat = 1024 ∧
        (Superblock.blockSuperblockIndex mem (base + 1024)).toNat = 1) ∨
      ((ext2BlocksizeGet mem (base + 1024)).toNat = 2048 ∧
        (Superblock.blockSuperblockIndex mem (base + 1024)).toNat = 0) ∨
      ((ext2BlocksizeGet mem (base + 1024)).toNat = 4096 ∧
        (Superblock.blockSuperblockIndex mem (base + 1024)).toNat = 0) := by
  rcases wf.blocksize with ⟨h, h'⟩ | ⟨h, h'⟩ | ⟨h, h'⟩
  · exact Or.inl ⟨by rw [h]; rfl, by rw [h']; rfl⟩
  · exact Or.inr (Or.inl ⟨by rw [h]; rfl, by rw [h']; rfl⟩)
  · exact Or.inr (Or.inr ⟨by rw [h]; rfl, by rw [h']; rfl⟩)

/-- The block group of inode `n`, as both sides compute it. -/
def inodeGroup (mem : Mem) (base n : UInt32) : UInt32 :=
  (n - 1) / Superblock.inodePerGroup mem (base + 1024)

/-- The inode's place in its group. -/
def inodeIndex (mem : Mem) (base n : UInt32) : UInt32 :=
  (n - 1) % Superblock.inodePerGroup mem (base + 1024)

theorem inodeIndex_lt {mem : Mem} {base : UInt32} (n : UInt32) (wf : Ext2Image mem base) :
    (inodeIndex mem base n).toNat < (Superblock.inodePerGroup mem (base + 1024)).toNat := by
  rw [inodeIndex, UInt32.toNat_mod]
  exact Nat.mod_lt _ wf.inodePerGroup

/-- An inode of the image is in one of its groups. -/
theorem inodeGroup_lt {mem : Mem} {base n : UInt32} (wf : Ext2Image mem base) (h1 : 1 ≤ n)
    (hn : n ≤ Superblock.inodeTotal mem (base + 1024)) :
    (inodeGroup mem base n).toNat < groupCount mem base := by
  rw [UInt32.le_iff_toNat_le] at h1 hn
  rw [wf.inodes] at hn
  rw [inodeGroup, UInt32.toNat_div, toNat_sub_of_le h1]
  apply Nat.div_lt_of_lt_mul
  rw [Nat.mul_comm]
  have hone : (1 : UInt32).toNat = 1 := rfl
  omega

/-! ### The two addresses -/

/-- The block number the reader takes the inode table of a group to start at. -/
def tableRead (mem : Mem) (base g : UInt32) : UInt32 :=
  inodeTableAddr mem (ext2BgDesGet mem g (base + 1024))

/-- Where the word the reader goes by lies, as a natural number. -/
def tableReadPlace (mem : Mem) (base : UInt32) (g : ℕ) : ℕ :=
  base.toNat + 1032 + (ext2BlocksizeGet mem (base + 1024)).toNat +
    (ext2BlocksizeGet mem (base + 1024)).toNat *
      ((Superblock.blockPerGroup mem (base + 1024)).toNat * g)

/-- Where the word that counts lies. -/
def tablePlace (mem : Mem) (base : UInt32) (g : ℕ) : ℕ :=
  base.toNat + 8 + (ext2BlocksizeGet mem (base + 1024)).toNat *
    ((Superblock.blockSuperblockIndex mem (base + 1024)).toNat + 1) + 32 * g

theorem bgDes_eq (mem : Mem) (base : UInt32) (g : ℕ) :
    ext2BgDesGet mem (UInt32.ofNat g) (base + 1024) + 8 =
      UInt32.ofNat (tableReadPlace mem base g) := by
  rw [ext2BgDesGet, ext2BlockgroupGet, tableReadPlace]
  simp only [UInt32.ofNat_add, UInt32.ofNat_mul, UInt32.ofNat_toNat]
  rw [show UInt32.ofNat 1032 = 1024 + 8 from rfl]
  grind

theorem groupDescriptor_eq (mem : Mem) (base : UInt32) (g : ℕ) :
    groupDescriptor mem base (UInt32.ofNat g) + 8 = UInt32.ofNat (tablePlace mem base g) := by
  rw [groupDescriptor, tablePlace]
  simp only [UInt32.ofNat_add, UInt32.ofNat_mul, UInt32.ofNat_toNat]
  rw [show UInt32.ofNat 8 = 8 from rfl, show UInt32.ofNat 1 = 1 from rfl,
    show UInt32.ofNat 32 = 32 from rfl]
  grind

/-- The reader's word lies after the superblock and inside the image. -/
theorem tableReadPlace_le {mem : Mem} {base : UInt32} (wf : Ext2Image mem base) {g : ℕ}
    (hg : g < groupCount mem base) :
    base.toNat + 2048 ≤ tableReadPlace mem base g ∧ tableReadPlace mem base g + 4 ≤ 2 ^ 32 := by
  have hgroup := wf.group g hg
  have hfits := wf.fits
  rw [tableReadPlace]
  generalize (Superblock.blockPerGroup mem (base + 1024)).toNat * g = x at hgroup ⊢
  rcases wf.blocksize_toNat with ⟨h, h'⟩ | ⟨h, h'⟩ | ⟨h, h'⟩
  all_goals
    rw [h] at hfits ⊢
    rw [h'] at hgroup
    constructor
    · omega
    · omega

/-- The descriptor table lies after the superblock and inside the image. -/
theorem tablePlace_le {mem : Mem} {base : UInt32} (wf : Ext2Image mem base) {g : ℕ}
    (hg : g < groupCount mem base) :
    base.toNat + 2048 ≤ tablePlace mem base g ∧ tablePlace mem base g + 4 ≤ 2 ^ 32 := by
  have hdes := wf.descriptors
  have htab := wf.table_last 0 wf.nonempty
  have hfits := wf.fits
  rw [show UInt32.ofNat 0 = 0 from rfl] at htab
  rw [tablePlace]
  rcases wf.blocksize_toNat with ⟨h, h'⟩ | ⟨h, h'⟩ | ⟨h, h'⟩
  all_goals
    rw [h, h'] at hdes htab ⊢
    rw [h] at hfits
    constructor
    · omega
    · omega

theorem toNat_bgDes {mem : Mem} {base : UInt32} (wf : Ext2Image mem base) {g : UInt32}
    (hg : g.toNat < groupCount mem base) :
    (ext2BgDesGet mem g (base + 1024) + 8).toNat = tableReadPlace mem base g.toNat := by
  have h := bgDes_eq mem base g.toNat
  rw [ofNat_toNat] at h
  rw [h, toNat_ofNat_of_lt (by have := tableReadPlace_le wf hg; omega)]

theorem toNat_groupDescriptor {mem : Mem} {base : UInt32} (wf : Ext2Image mem base) {g : UInt32}
    (hg : g.toNat < groupCount mem base) :
    (groupDescriptor mem base g + 8).toNat = tablePlace mem base g.toNat := by
  have h := groupDescriptor_eq mem base g.toNat
  rw [ofNat_toNat] at h
  rw [h, toNat_ofNat_of_lt (by have := tablePlace_le wf hg; omega)]

/-- Mounting does not write on the word the reader goes by. -/
theorem mounted_tableRead {mem : Mem} {base : UInt32} (wf : Ext2Image mem base) {g : UInt32}
    (hg : g.toNat < groupCount mem base) :
    tableRead (mounted mem base) base g = tableRead mem base g := by
  rw [tableRead, tableRead, mounted_bgDes, inodeTableAddr, inodeTableAddr]
  apply read32_write16_of_apart
  have hplace := tableReadPlace_le wf hg
  have hbase : (base + 1024 + 88).toNat = base.toNat + 1112 := by
    rw [UInt32.add_assoc]
    exact toNat_add_of_lt (by rw [show (1024 + 88 : UInt32).toNat = 1112 from rfl]; omega)
  apply apart_of_le (by decide)
  · rw [hbase, toNat_bgDes wf hg]
    omega
  · rw [toNat_bgDes wf hg]
    omega

/-- **What the reader returns** for an inode of the image. -/
theorem ext2InodeGet_mounted {mem : Mem} {base n : UInt32} (wf : Ext2Image mem base) (h1 : 1 ≤ n)
    (hn : n ≤ Superblock.inodeTotal mem (base + 1024)) :
    ext2InodeGet (mounted mem base) n (base + 1024) =
      some (base + ext2BlocksizeGet mem (base + 1024) *
        tableRead mem base (inodeGroup mem base n) + 128 * inodeIndex mem base n) := by
  have hg := inodeGroup_lt wf h1 hn
  have hgroup := wf.group _ hg
  have hipg : Superblock.inodePerGroup mem (base + 1024) ≠ 0 := by
    intro h
    have := wf.inodePerGroup
    rw [h] at this
    exact absurd this (by decide)
  have hbpg : Superblock.blockPerGroup mem (base + 1024) ≠ 0 := by
    intro h
    have := wf.blockPerGroup
    rw [h] at this
    exact absurd this (by decide)
  have hlast : ¬ Superblock.blockTotal mem (base + 1024) /
      Superblock.blockPerGroup mem (base + 1024) < inodeGroup mem base n := by
    rw [UInt32.not_lt, UInt32.le_iff_toNat_le, UInt32.toNat_div,
      Nat.le_div_iff_mul_le wf.blockPerGroup, Nat.mul_comm]
    omega
  have hread := mounted_tableRead wf hg
  rw [tableRead] at hread
  rw [ext2InodeGet, mounted_inodeTotal, mounted_inodePerGroup, mounted_blockPerGroup,
    mounted_blockTotal, mounted_blocksize, mounted_inodeSize, if_neg (UInt32.not_lt.2 hn),
    if_neg hipg, if_neg hbpg]
  simp only [inodeGroup, inodeIndex] at hlast hread ⊢
  have hcancel : ∀ a b : UInt32, a + 1024 + (b - 1024) = a + b := by
    intro a b
    grind
  rw [if_neg hlast, hread, hcancel, show (128 : UInt16).toUInt32 = 128 from rfl]

/-! ### One image -/

/-- `ext2_inode_get` on the image as mounted gives the inode's address. -/
def InodeGetOk (mem : Mem) (base n : UInt32) : Prop :=
  ∃ superblock mem', ext2SuperblockGet mem base = some (superblock, mem') ∧
    ext2InodeGet mem' n superblock = some (inodeAddr mem base n)

/-- The block number the reader goes by and the one that counts lie as far apart as 128-byte inodes
and inodes of the size on record put the inode's two places. -/
def SameEntry (mem : Mem) (base n : UInt32) : Prop :=
  ext2BlocksizeGet mem (base + 1024) * tableRead mem base (inodeGroup mem base n) +
      128 * inodeIndex mem base n =
    ext2BlocksizeGet mem (base + 1024) * inodeTableOf mem base (inodeGroup mem base n) +
      (Superblock.inodeSize mem (base + 1024)).toUInt32 * inodeIndex mem base n

theorem inodeGetOk_iff_sameEntry {mem : Mem} {base n : UInt32} (wf : Ext2Image mem base)
    (h1 : 1 ≤ n) (hn : n ≤ Superblock.inodeTotal mem (base + 1024)) :
    InodeGetOk mem base n ↔ SameEntry mem base n := by
  have hget := ext2InodeGet_mounted wf h1 hn
  have haddr : inodeAddr mem base n = base + (ext2BlocksizeGet mem (base + 1024) *
      inodeTableOf mem base (inodeGroup mem base n) +
        (Superblock.inodeSize mem (base + 1024)).toUInt32 * inodeIndex mem base n) :=
    UInt32.add_assoc _ _ _
  rw [UInt32.add_assoc] at hget
  constructor
  · rintro ⟨superblock, mem', hmount, hok⟩
    rw [ext2SuperblockGet_eq wf.magic] at hmount
    obtain ⟨rfl, rfl⟩ := Prod.mk.inj (Option.some.inj hmount)
    rw [hget, haddr] at hok
    exact UInt32.add_right_inj base |>.1 (Option.some.inj hok)
  · intro hentry
    refine ⟨_, _, ext2SuperblockGet_eq wf.magic, ?_⟩
    rw [hget, haddr, hentry]

/-! ### All images with one superblock -/

/-- The two memories have the same 1024 bytes of superblock. -/
def SameSuperblock (mem mem' : Mem) (base : UInt32) : Prop :=
  ∀ i : UInt32, i.toNat < 1024 → mem' (base + 1024 + i) = mem (base + 1024 + i)

theorem SameSuperblock.read32_eq {mem mem' : Mem} {base : UInt32}
    (h : SameSuperblock mem mem' base) (k : UInt32) (hk : k.toNat + 4 ≤ 1024) :
    read32 mem' (base + 1024 + k) = read32 mem (base + 1024 + k) := by
  apply read32_congr
  intro i hi
  rw [UInt32.add_assoc (base + 1024)]
  exact h (k + i) (by rw [toNat_add_of_lt (by omega)]; omega)

theorem SameSuperblock.read16_eq {mem mem' : Mem} {base : UInt32}
    (h : SameSuperblock mem mem' base) (k : UInt32) (hk : k.toNat + 2 ≤ 1024) :
    read16 mem' (base + 1024 + k) = read16 mem (base + 1024 + k) := by
  have hone : (1 : UInt32).toNat = 1 := rfl
  rw [read16, read16, h k (by omega), UInt32.add_assoc (base + 1024),
    h (k + 1) (by rw [toNat_add_of_lt (by omega)]; omega)]

/-- Everything in the superblock reads the same. -/
structure SameFields (mem mem' : Mem) (base : UInt32) : Prop where
  inodeTotal : Superblock.inodeTotal mem' (base + 1024) = Superblock.inodeTotal mem (base + 1024)
  blockTotal : Superblock.blockTotal mem' (base + 1024) = Superblock.blockTotal mem (base + 1024)
  superblockIndex : Superblock.blockSuperblockIndex mem' (base + 1024) =
    Superblock.blockSuperblockIndex mem (base + 1024)
  sizeLog : Superblock.blockSizeLog mem' (base + 1024) = Superblock.blockSizeLog mem (base + 1024)
  blockPerGroup : Superblock.blockPerGroup mem' (base + 1024) =
    Superblock.blockPerGroup mem (base + 1024)
  inodePerGroup : Superblock.inodePerGroup mem' (base + 1024) =
    Superblock.inodePerGroup mem (base + 1024)
  magic : Superblock.magic mem' (base + 1024) = Superblock.magic mem (base + 1024)
  inodeSize : Superblock.inodeSize mem' (base + 1024) = Superblock.inodeSize mem (base + 1024)

theorem SameSuperblock.fields {mem mem' : Mem} {base : UInt32}
    (h : SameSuperblock mem mem' base) : SameFields mem mem' base where
  inodeTotal := by
    have h0 := h.read32_eq 0 (by decide)
    rwa [UInt32.add_zero] at h0
  blockTotal := h.read32_eq 4 (by decide)
  superblockIndex := h.read32_eq 20 (by decide)
  sizeLog := h.read32_eq 24 (by decide)
  blockPerGroup := h.read32_eq 32 (by decide)
  inodePerGroup := h.read32_eq 40 (by decide)
  magic := h.read16_eq 56 (by decide)
  inodeSize := h.read16_eq 88 (by decide)

section SameFields

variable {mem mem' : Mem} {base : UInt32}

theorem SameFields.blocksize (h : SameFields mem mem' base) :
    ext2BlocksizeGet mem' (base + 1024) = ext2BlocksizeGet mem (base + 1024) := by
  rw [ext2BlocksizeGet, ext2BlocksizeGet, h.sizeLog]

theorem SameFields.groupCount (h : SameFields mem mem' base) :
    groupCount mem' base = groupCount mem base := by
  rw [CometOS.groupCount, CometOS.groupCount, h.blockTotal, h.superblockIndex, h.blockPerGroup]

theorem SameFields.groupDescriptor (h : SameFields mem mem' base) (g : UInt32) :
    groupDescriptor mem' base g = groupDescriptor mem base g := by
  rw [CometOS.groupDescriptor, CometOS.groupDescriptor, h.blocksize, h.superblockIndex]

theorem SameFields.bgDes (h : SameFields mem mem' base) (g : UInt32) :
    ext2BgDesGet mem' g (base + 1024) = ext2BgDesGet mem g (base + 1024) := by
  rw [ext2BgDesGet, ext2BgDesGet, ext2BlockgroupGet, ext2BlockgroupGet, h.blocksize,
    h.blockPerGroup]

theorem SameFields.inodeGroup (h : SameFields mem mem' base) (n : UInt32) :
    inodeGroup mem' base n = inodeGroup mem base n := by
  rw [CometOS.inodeGroup, CometOS.inodeGroup, h.inodePerGroup]

theorem SameFields.inodeIndex (h : SameFields mem mem' base) (n : UInt32) :
    inodeIndex mem' base n = inodeIndex mem base n := by
  rw [CometOS.inodeIndex, CometOS.inodeIndex, h.inodePerGroup]

/-- An image stays well formed when neither its superblock nor a block number of an inode table
changes. -/
theorem Ext2Image.congr (wf : Ext2Image mem base) (h : SameFields mem mem' base)
    (ht : ∀ g < groupCount mem base,
      inodeTableOf mem' base (UInt32.ofNat g) = inodeTableOf mem base (UInt32.ofNat g)) :
    Ext2Image mem' base where
  magic := by rw [h.magic]; exact wf.magic
  log := by rw [h.sizeLog]; exact wf.log
  first := by rw [h.superblockIndex, h.sizeLog]; exact wf.first
  blockPerGroup := by rw [h.blockPerGroup]; exact wf.blockPerGroup
  inodePerGroup := by rw [h.inodePerGroup]; exact wf.inodePerGroup
  inodeSize := by rw [h.inodeSize, h.blocksize]; exact wf.inodeSize
  inodes := by rw [h.inodeTotal, h.groupCount, h.inodePerGroup]; exact wf.inodes
  fits := by rw [h.blocksize, h.blockTotal]; exact wf.fits
  nonempty := by rw [h.groupCount]; exact wf.nonempty
  group := by
    rw [h.groupCount, h.superblockIndex, h.blockPerGroup, h.blockTotal]
    exact wf.group
  descriptors := by
    have h0 := ht 0 wf.nonempty
    rw [show UInt32.ofNat 0 = 0 from rfl] at h0
    rw [h.blocksize, h.superblockIndex, h.groupCount, h0]
    exact wf.descriptors
  table_first := by
    rw [h.groupCount, h.superblockIndex, h.blockPerGroup]
    intro g hg
    rw [ht g hg]
    exact wf.table_first g hg
  table_last := by
    rw [h.groupCount, h.superblockIndex, h.blockPerGroup, h.blocksize, h.inodeSize,
      h.inodePerGroup, h.blockTotal]
    intro g hg
    rw [ht g hg]
    exact wf.table_last g hg

end SameFields

/-! ### When the superblock alone decides -/

/-- The inode is in the first group, blocks have 1 KiB, and inodes have 128 bytes or it is the
group's first one. -/
def FirstGroupOf1K (mem : Mem) (base n : UInt32) : Prop :=
  n ≤ Superblock.inodePerGroup mem (base + 1024) ∧
    ext2BlocksizeGet mem (base + 1024) = 1024 ∧
    (Superblock.inodeSize mem (base + 1024) = 128 ∨ n = 1)

theorem inodeGroup_eq_zero_iff {mem : Mem} {base n : UInt32} (wf : Ext2Image mem base)
    (h1 : 1 ≤ n) :
    inodeGroup mem base n = 0 ↔ n ≤ Superblock.inodePerGroup mem (base + 1024) := by
  have hpos := wf.inodePerGroup
  have hone : (1 : UInt32).toNat = 1 := rfl
  rw [UInt32.le_iff_toNat_le] at h1
  rw [← UInt32.toNat_inj, inodeGroup, UInt32.toNat_div, toNat_sub_of_le h1,
    show (0 : UInt32).toNat = 0 from rfl, Nat.div_eq_zero_iff, UInt32.le_iff_toNat_le]
  omega

/-- With 1 KiB blocks the two words are one in the first group. -/
theorem tableRead_zero_of_1K {mem : Mem} {base : UInt32} (wf : Ext2Image mem base)
    (hbs : ext2BlocksizeGet mem (base + 1024) = 1024) :
    tableRead mem base 0 = inodeTableOf mem base 0 := by
  have hfirst : Superblock.blockSuperblockIndex mem (base + 1024) = 1 := by
    rcases wf.blocksize with ⟨_, h⟩ | ⟨h, _⟩ | ⟨h, _⟩
    · exact h
    · rw [hbs] at h
      exact absurd h (by decide)
    · rw [hbs] at h
      exact absurd h (by decide)
  have hread := bgDes_eq mem base 0
  have hdes := groupDescriptor_eq mem base 0
  rw [show UInt32.ofNat 0 = 0 from rfl] at hread hdes
  rw [tableRead, inodeTableOf, inodeTableAddr, inodeTableAddr, hread, hdes]
  congr 2
  rw [tableReadPlace, tablePlace, hbs, hfirst, show (1024 : UInt32).toNat = 1024 from rfl,
    show (1 : UInt32).toNat = 1 from rfl]
  omega

/-- With larger blocks the reader takes the word of descriptor 32 in the first group. -/
theorem tableRead_zero_of_large {mem : Mem} {base : UInt32} (wf : Ext2Image mem base)
    (hbs : ext2BlocksizeGet mem (base + 1024) ≠ 1024) :
    tableRead mem base 0 = inodeTableOf mem base 32 := by
  have hfirst : (Superblock.blockSuperblockIndex mem (base + 1024)).toNat = 0 := by
    rcases wf.blocksize with ⟨h, _⟩ | ⟨_, h⟩ | ⟨_, h⟩
    · exact absurd h hbs
    · rw [h]
      rfl
    · rw [h]
      rfl
  have hread := bgDes_eq mem base 0
  have hdes := groupDescriptor_eq mem base 32
  rw [show UInt32.ofNat 0 = 0 from rfl] at hread
  rw [show UInt32.ofNat 32 = 32 from rfl] at hdes
  rw [tableRead, inodeTableOf, inodeTableAddr, inodeTableAddr, hread, hdes]
  congr 2
  rw [tableReadPlace, tablePlace, hfirst]
  omega

/-- The place of an entry, computed without wrapping. -/
theorem toNat_entry {mem : Mem} {base : UInt32} (wf : Ext2Image mem base) {g i s : UInt32}
    (hg : g.toNat < groupCount mem base)
    (hi : i.toNat < (Superblock.inodePerGroup mem (base + 1024)).toNat)
    (hs : s.toNat ≤ (Superblock.inodeSize mem (base + 1024)).toNat) :
    (ext2BlocksizeGet mem (base + 1024) * inodeTableOf mem base g + s * i).toNat =
      (ext2BlocksizeGet mem (base + 1024)).toNat * (inodeTableOf mem base g).toNat +
        s.toNat * i.toNat ∧
    (ext2BlocksizeGet mem (base + 1024)).toNat * (inodeTableOf mem base g).toNat +
        s.toNat * i.toNat <
      (ext2BlocksizeGet mem (base + 1024)).toNat *
        min ((Superblock.blockSuperblockIndex mem (base + 1024)).toNat +
            (Superblock.blockPerGroup mem (base + 1024)).toNat * (g.toNat + 1))
          (Superblock.blockTotal mem (base + 1024)).toNat := by
  have hlast := wf.table_last g.toNat hg
  rw [ofNat_toNat] at hlast
  have hfits := wf.fits
  have hle : s.toNat * i.toNat ≤ (Superblock.inodeSize mem (base + 1024)).toNat * i.toNat :=
    Nat.mul_le_mul_right _ hs
  have hlt : (Superblock.inodeSize mem (base + 1024)).toNat * i.toNat <
      (Superblock.inodeSize mem (base + 1024)).toNat *
        (Superblock.inodePerGroup mem (base + 1024)).toNat :=
    Nat.mul_lt_mul_of_pos_left hi (by have := wf.inodeSize.1; omega)
  have hmin : (ext2BlocksizeGet mem (base + 1024)).toNat *
      min ((Superblock.blockSuperblockIndex mem (base + 1024)).toNat +
          (Superblock.blockPerGroup mem (base + 1024)).toNat * (g.toNat + 1))
        (Superblock.blockTotal mem (base + 1024)).toNat ≤
      (ext2BlocksizeGet mem (base + 1024)).toNat *
        (Superblock.blockTotal mem (base + 1024)).toNat :=
    Nat.mul_le_mul_left _ (min_le_right _ _)
  refine ⟨?_, by omega⟩
  rw [toNat_add_of_lt, toNat_mul_of_lt, toNat_mul_of_lt]
  · omega
  · omega
  · rw [toNat_mul_of_lt (by omega), toNat_mul_of_lt (by omega)]
    omega

theorem sameEntry_of_first {mem : Mem} {base n : UInt32} (wf : Ext2Image mem base) (h1 : 1 ≤ n)
    (h : FirstGroupOf1K mem base n) : SameEntry mem base n := by
  obtain ⟨hle, hbs, hsize⟩ := h
  rw [SameEntry, (inodeGroup_eq_zero_iff wf h1).2 hle, tableRead_zero_of_1K wf hbs]
  rcases hsize with hsize | rfl
  · rw [hsize]
    rfl
  · have hindex : inodeIndex mem base 1 = 0 := by
      apply eq_of_toNat
      rw [inodeIndex, UInt32.toNat_mod]
      exact Nat.zero_mod _
    rw [hindex, UInt32.mul_zero, UInt32.mul_zero]

/-- In the first group of an image with 1 KiB blocks the inode size is all that can go wrong. -/
theorem first_of_sameEntry {mem : Mem} {base n : UInt32} (wf : Ext2Image mem base) (h1 : 1 ≤ n)
    (hle : n ≤ Superblock.inodePerGroup mem (base + 1024))
    (hbs : ext2BlocksizeGet mem (base + 1024) = 1024) (h : SameEntry mem base n) :
    Superblock.inodeSize mem (base + 1024) = 128 ∨ n = 1 := by
  have hi := inodeIndex_lt n wf
  rw [SameEntry, (inodeGroup_eq_zero_iff wf h1).2 hle, tableRead_zero_of_1K wf hbs] at h
  have hcode := (toNat_entry wf (g := 0) (s := 128) wf.nonempty hi wf.inodeSize.1).1
  have hspec := (toNat_entry wf (g := 0) (s := (Superblock.inodeSize mem (base + 1024)).toUInt32)
    wf.nonempty hi (le_refl _)).1
  rw [h, hspec] at hcode
  have hmul := Nat.add_left_cancel hcode
  rcases Nat.eq_zero_or_pos (inodeIndex mem base n).toNat with hzero | hposi
  · right
    rw [inodeIndex, UInt32.toNat_mod, Nat.mod_eq_of_lt, toNat_sub_of_le] at hzero
    · rw [UInt32.le_iff_toNat_le] at h1
      have hone : (1 : UInt32).toNat = 1 := rfl
      apply eq_of_toNat
      omega
    · exact UInt32.le_iff_toNat_le.1 h1
    · rw [toNat_sub_of_le (UInt32.le_iff_toNat_le.1 h1)]
      rw [UInt32.le_iff_toNat_le] at hle h1
      have hone : (1 : UInt32).toNat = 1 := rfl
      omega
  · left
    exact UInt16.toNat_inj.1 (Nat.eq_of_mul_eq_mul_right hposi hmul)

/-- With larger blocks and more than 32 groups the reader goes to a table of another group. -/
theorem not_sameEntry_of_large {mem : Mem} {base n : UInt32} (wf : Ext2Image mem base) (h1 : 1 ≤ n)
    (hmany : 32 < groupCount mem base) (hle : n ≤ Superblock.inodePerGroup mem (base + 1024))
    (hbs : ext2BlocksizeGet mem (base + 1024) ≠ 1024) : ¬ SameEntry mem base n := by
  intro h
  have hi := inodeIndex_lt n wf
  rw [SameEntry, (inodeGroup_eq_zero_iff wf h1).2 hle, tableRead_zero_of_large wf hbs] at h
  have hcode := (toNat_entry wf (g := 32) (s := 128) hmany hi wf.inodeSize.1).1
  have hspec := toNat_entry wf (g := 0) (s := (Superblock.inodeSize mem (base + 1024)).toUInt32)
    wf.nonempty hi (le_refl _)
  rw [h, hspec.1] at hcode
  have hlt := hspec.2
  rw [hcode] at hlt
  have hfirst := wf.table_first 32 hmany
  rw [show UInt32.ofNat 32 = 32 from rfl] at hfirst
  have hmono : (ext2BlocksizeGet mem (base + 1024)).toNat *
      min ((Superblock.blockSuperblockIndex mem (base + 1024)).toNat +
          (Superblock.blockPerGroup mem (base + 1024)).toNat * ((0 : UInt32).toNat + 1))
        (Superblock.blockTotal mem (base + 1024)).toNat ≤
      (ext2BlocksizeGet mem (base + 1024)).toNat * (inodeTableOf mem base 32).toNat := by
    apply Nat.mul_le_mul_left
    rw [show (0 : UInt32).toNat = 0 from rfl]
    omega
  omega

/-- A reader's word outside the descriptor table can be changed in a well-formed image, so that it
cannot be right in both. -/
theorem exists_other {mem : Mem} {base n : UInt32} (wf : Ext2Image mem base) (h1 : 1 ≤ n)
    (hn : n ≤ Superblock.inodeTotal mem (base + 1024))
    (hafter : ∀ g < groupCount mem base,
      tablePlace mem base g + 4 ≤ tableReadPlace mem base (inodeGroup mem base n).toNat) :
    ∃ mem', Ext2Image mem' base ∧ SameSuperblock mem mem' base ∧ ¬ SameEntry mem' base n := by
  by_cases hentry : SameEntry mem base n
  swap
  · exact ⟨mem, wf, fun _ _ => rfl, hentry⟩
  have hg := inodeGroup_lt wf h1 hn
  have hplace := tableReadPlace_le wf hg
  have hword := toNat_bgDes wf hg
  generalize ha : ext2BgDesGet mem (inodeGroup mem base n) (base + 1024) + 8 = a at hword
  have hsame : SameSuperblock mem (write32 mem a (tableRead mem base (inodeGroup mem base n) + 1))
      base := by
    intro i hi
    apply write32_of_far
    have hx : (base + 1024 + i).toNat = base.toNat + 1024 + i.toNat := by
      have h1024 : (1024 : UInt32).toNat = 1024 := rfl
      rw [toNat_add_of_lt, toNat_add_of_lt (by omega), h1024]
      rw [toNat_add_of_lt (by omega)]
      omega
    rw [toNat_sub_of_lt (by omega)]
    omega
  have htable : ∀ g : UInt32, g.toNat < groupCount mem base →
      inodeTableOf (write32 mem a (tableRead mem base (inodeGroup mem base n) + 1)) base g =
        inodeTableOf mem base g := by
    intro g hg'
    rw [inodeTableOf, inodeTableOf, hsame.fields.groupDescriptor, inodeTableAddr, inodeTableAddr]
    apply read32_write32_of_apart
    apply Apart.symm
    apply apart_of_le (by decide)
    · rw [toNat_groupDescriptor wf hg', hword]
      exact hafter _ hg'
    · rw [hword]
      exact hplace.2
  refine ⟨_, wf.congr hsame.fields ?_, hsame, ?_⟩
  · intro g hg'
    have hlt := tablePlace_le wf hg'
    rw [tablePlace] at hlt
    exact htable _ (by rw [toNat_ofNat_of_lt (by omega)]; exact hg')
  · intro hentry'
    have hread : tableRead (write32 mem a (tableRead mem base (inodeGroup mem base n) + 1)) base
        (inodeGroup mem base n) = tableRead mem base (inodeGroup mem base n) + 1 := by
      rw [tableRead, hsame.fields.bgDes, inodeTableAddr, ha, read32_write32_same]
    rw [SameEntry] at hentry
    rw [SameEntry, hsame.fields.inodeGroup, hsame.fields.inodeIndex, hsame.fields.blocksize,
      hsame.fields.inodeSize, hread, htable _ hg, ← hentry] at hentry'
    have hbs : ext2BlocksizeGet mem (base + 1024) = 0 := by
      generalize ext2BlocksizeGet mem (base + 1024) = bs at hentry' ⊢
      generalize tableRead mem base (inodeGroup mem base n) = w at hentry'
      generalize 128 * inodeIndex mem base n = i at hentry'
      grind
    rcases wf.blocksize with ⟨h, _⟩ | ⟨h, _⟩ | ⟨h, _⟩
    all_goals
      rw [h] at hbs
      exact absurd hbs (by decide)

/-- Outside that case some image with this superblock is read wrongly. -/
theorem exists_other_of_not_first {mem : Mem} {base n : UInt32} (wf : Ext2Image mem base)
    (h1 : 1 ≤ n) (hn : n ≤ Superblock.inodeTotal mem (base + 1024))
    (h : ¬ FirstGroupOf1K mem base n) :
    ∃ mem', Ext2Image mem' base ∧ SameSuperblock mem mem' base ∧ ¬ SameEntry mem' base n := by
  have hg := inodeGroup_lt wf h1 hn
  by_cases hle : n ≤ Superblock.inodePerGroup mem (base + 1024)
  · have hzero := (inodeGroup_eq_zero_iff wf h1).2 hle
    by_cases hbs : ext2BlocksizeGet mem (base + 1024) = 1024
    · refine ⟨mem, wf, fun _ _ => rfl, fun hentry => h ⟨hle, hbs, ?_⟩⟩
      exact first_of_sameEntry wf h1 hle hbs hentry
    · by_cases hmany : 32 < groupCount mem base
      · exact ⟨mem, wf, fun _ _ => rfl, not_sameEntry_of_large wf h1 hmany hle hbs⟩
      · -- the table's 32 descriptors end just before the word the reader takes
        apply exists_other wf h1 hn
        intro g hg'
        rw [hzero, tablePlace, tableReadPlace]
        rcases wf.blocksize_toNat with ⟨h, _⟩ | ⟨_, h⟩ | ⟨_, h⟩
        · exact absurd (eq_of_toNat h) hbs
        · rw [h, show (0 : UInt32).toNat = 0 from rfl]
          omega
        · rw [h, show (0 : UInt32).toNat = 0 from rfl]
          omega
  · have hpos : 0 < (inodeGroup mem base n).toNat :=
      toNat_pos fun hzero => hle ((inodeGroup_eq_zero_iff wf h1).1 hzero)
    -- the word is in the group's own blocks, and the table is in those of the first
    apply exists_other wf h1 hn
    intro g hg'
    have hmul : (Superblock.blockPerGroup mem (base + 1024)).toNat ≤
        (Superblock.blockPerGroup mem (base + 1024)).toNat * (inodeGroup mem base n).toNat :=
      Nat.le_mul_of_pos_right _ hpos
    have hdes := wf.descriptors
    have hlast := wf.table_last 0 wf.nonempty
    rw [show UInt32.ofNat 0 = 0 from rfl] at hlast
    rw [tablePlace, tableReadPlace]
    generalize (Superblock.blockPerGroup mem (base + 1024)).toNat *
      (inodeGroup mem base n).toNat = x at hmul ⊢
    rcases wf.blocksize_toNat with ⟨h, h'⟩ | ⟨h, h'⟩ | ⟨h, h'⟩
    all_goals
      rw [h, h'] at hdes hlast
      rw [h, h']
      omega

/-- **Finding inodes, exactly.**  On one image the reader finds inode `n` if and only if the block
number it goes by makes up for the inode size it goes by.  On every image with a given superblock it
does so if and only if the inode is in the first group, blocks have 1 KiB, and inodes have 128 bytes
or it is inode 1. -/
theorem inode_get_iff {mem : Mem} {base n : UInt32} (wf : Ext2Image mem base) (h1 : 1 ≤ n)
    (hn : n ≤ Superblock.inodeTotal mem (base + 1024)) :
    (InodeGetOk mem base n ↔ SameEntry mem base n) ∧
      ((∀ mem', Ext2Image mem' base → SameSuperblock mem mem' base → InodeGetOk mem' base n) ↔
        FirstGroupOf1K mem base n) := by
  refine ⟨inodeGetOk_iff_sameEntry wf h1 hn, ?_, ?_⟩
  · intro hall
    by_contra hfirst
    obtain ⟨mem', wf', hsame, hentry⟩ := exists_other_of_not_first wf h1 hn hfirst
    have hn' : n ≤ Superblock.inodeTotal mem' (base + 1024) := by
      rw [hsame.fields.inodeTotal]
      exact hn
    exact hentry ((inodeGetOk_iff_sameEntry wf' h1 hn').1 (hall mem' wf' hsame))
  · rintro ⟨hle, hbs, hsize⟩ mem' wf' hsame
    have hfields := hsame.fields
    have hn' : n ≤ Superblock.inodeTotal mem' (base + 1024) := by
      rw [hfields.inodeTotal]
      exact hn
    apply (inodeGetOk_iff_sameEntry wf' h1 hn').2
    apply sameEntry_of_first wf' h1
    refine ⟨?_, ?_, ?_⟩
    · rw [hfields.inodePerGroup]
      exact hle
    · rw [hfields.blocksize]
      exact hbs
    · rw [hfields.inodeSize]
      exact hsize

/-- Inode 1 of the image with 256-byte inodes is found, as in every image with its superblock. -/
theorem inode_get_one : InodeGetOk image256 0x100000 1 :=
  (inode_get_iff image256_wf (by decide) (by decide)).2.2 ⟨by decide, by decide, Or.inr rfl⟩
    image256 image256_wf fun _ _ => rfl

/-- Inode 2, the root directory, is looked for 128 bytes too early. -/
theorem inode_get_fails_on_root : ¬ InodeGetOk image256 0x100000 2 := by
  rw [inodeGetOk_iff_sameEntry image256_wf (by decide) (by decide)]
  intro hentry
  have hsize := first_of_sameEntry image256_wf (by decide) (by decide) (by decide) hentry
  exact absurd hsize (by decide)

end CometOS
