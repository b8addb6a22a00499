import CometOS.Ext2Block

/-!
# Directories

A directory is a file whose blocks are each tiled by records.  `ext2_direntry_get` counts records
from the start of the first block; at the end of a block it looks the next one up, but leaves its
offset behind the block's end, and so it looks up one block after the other for ever.  Only if the
index is reached just there does it come back, with the place behind the first block.
-/

namespace CometOS

open ByteMemory Reader Word32

/-! ### Well-formed directories -/

/-- A directory: its blocks, one after the other, and how many records each has.  Where a block is
comes from the inode, directly or by the indirect block; what is behind those may be anywhere. -/
structure Directory (mem : Mem) (base inode : UInt32) where
  blocks : ℕ
  block : ℕ → UInt32
  count : ℕ → ℕ
  log : (Superblock.blockSizeLog mem (base + 1024)).toNat ≤ 2
  size : (Inode.size mem inode).toNat = (ext2BlocksizeGet mem (base + 1024)).toNat * blocks
  placed : ∀ j < blocks, j < 12 + (ext2BlocksizeGet mem (base + 1024)).toNat / 4 →
    fileBlock mem base inode (UInt32.ofNat j) ≠ 0 ∧
      block j = blockAddr mem base inode (UInt32.ofNat j)
  /-- An empty directory has no first block. -/
  empty : blocks = 0 → Inode.block mem inode 0 = 0
  lengths : ∀ j < blocks, ∀ k < count j,
    recLen mem (block j + UInt32.ofNat (entryOffset mem (block j) k)) ≠ 0
  tiled : ∀ j < blocks,
    entryOffset mem (block j) (count j) = (ext2BlocksizeGet mem (base + 1024)).toNat

section Directory

variable {mem : Mem} {base inode : UInt32}

/-- The records of block `j`. -/
def Directory.blockRecords (d : Directory mem base inode) (j : ℕ) : List UInt32 :=
  (List.range (d.count j)).map fun k => d.block j + UInt32.ofNat (entryOffset mem (d.block j) k)

/-- The records of the directory, in order. -/
def Directory.records (d : Directory mem base inode) : List UInt32 :=
  (List.range d.blocks).flatMap d.blockRecords

/-- The record at an index, 0 for none. -/
def Directory.entry (d : Directory mem base inode) (index : UInt32) : UInt32 :=
  d.records.getD index.toNat 0

/-- `ext2_direntry_get` ends, with the record at the index. -/
def DirentryOk (d : Directory mem base inode) (index : UInt32) : Prop :=
  ∃ turns, ∀ n, turns ≤ n →
    (ReadBy.ext2DirentryGet n index inode (base + 1024) mem).1 = some (d.entry index)

/-- The index is that of a record of the first block; or it is the next one, and the next record, or
no place at all, is what follows the first block in memory.  An empty directory has no block, and the
length that is read for a record of it is the one at address zero. -/
def DirentryMet (d : Directory mem base inode) (index : UInt32) : Prop :=
  if d.blocks = 0 then index = 1 → recLen mem 0 = 0
  else index.toNat < d.count 0 ∨ index.toNat = d.count 0 ∧
    d.block 0 + ext2BlocksizeGet mem (base + 1024) = if d.blocks = 1 then 0 else d.block 1

/-! ### The records -/

theorem Directory.blocksize (d : Directory mem base inode) :
    1024 ≤ (ext2BlocksizeGet mem (base + 1024)).toNat := by
  have hlog := d.log
  have hcases : Superblock.blockSizeLog mem (base + 1024) = 0 ∨
      Superblock.blockSizeLog mem (base + 1024) = 1 ∨
      Superblock.blockSizeLog mem (base + 1024) = 2 := by
    rw [← UInt32.toNat_inj, ← UInt32.toNat_inj, ← UInt32.toNat_inj]
    simp only [UInt32.reduceToNat]
    omega
  rw [ext2BlocksizeGet]
  rcases hcases with h | h | h
  · rw [h]
    decide
  · rw [h]
    decide
  · rw [h]
    decide

theorem Directory.entryOffset_lt (d : Directory mem base inode) {j k : ℕ} (hj : j < d.blocks)
    (hk : k < d.count j) :
    entryOffset mem (d.block j) k < (ext2BlocksizeGet mem (base + 1024)).toNat := by
  have hlen : 0 < (recLen mem (d.block j + UInt32.ofNat (entryOffset mem (d.block j) k))).toNat :=
    Nat.pos_of_ne_zero fun h0 => d.lengths j hj k hk (UInt16.toNat_inj.1 h0)
  have hmono := entryOffset_mono mem (d.block j) (Nat.succ_le_of_lt hk)
  rw [d.tiled j hj, Nat.succ_eq_add_one, entryOffset] at hmono
  omega

theorem Directory.count_pos (d : Directory mem base inode) {j : ℕ} (hj : j < d.blocks) :
    0 < d.count j := by
  refine Nat.pos_of_ne_zero fun h0 => ?_
  have htiled := d.tiled j hj
  have hbs := d.blocksize
  rw [h0, entryOffset] at htiled
  omega

theorem Directory.records_eq (d : Directory mem base inode) (h : 0 < d.blocks) :
    d.records = d.blockRecords 0 ++
      (List.range (d.blocks - 1)).flatMap fun j => d.blockRecords (j + 1) := by
  obtain ⟨n, hn⟩ : ∃ n, d.blocks = n + 1 := ⟨d.blocks - 1, by omega⟩
  rw [Directory.records, hn, List.range_succ_eq_map, List.flatMap_cons, List.flatMap_map]
  rfl

theorem Directory.blockRecords_length (d : Directory mem base inode) (j : ℕ) :
    (d.blockRecords j).length = d.count j := by
  rw [Directory.blockRecords, List.length_map, List.length_range]

/-- The record at an index of the first block. -/
theorem Directory.entry_first (d : Directory mem base inode) {index : UInt32} (h : 0 < d.blocks)
    (hindex : index.toNat < d.count 0) :
    d.entry index = d.block 0 + UInt32.ofNat (entryOffset mem (d.block 0) index.toNat) := by
  rw [Directory.entry, d.records_eq h, List.getD_eq_getElem?_getD,
    List.getElem?_append_left (by rwa [d.blockRecords_length]), Directory.blockRecords,
    List.getElem?_map, List.getElem?_range hindex]
  rfl

/-- The next one is the first record of the second block, if there is one. -/
theorem Directory.entry_second (d : Directory mem base inode) {index : UInt32} (h : 0 < d.blocks)
    (hindex : index.toNat = d.count 0) :
    d.entry index = if d.blocks = 1 then 0 else d.block 1 := by
  rw [Directory.entry, d.records_eq h, List.getD_eq_getElem?_getD,
    List.getElem?_append_right (by rw [d.blockRecords_length, hindex]), d.blockRecords_length,
    hindex, Nat.sub_self]
  by_cases hone : d.blocks = 1
  · rw [if_pos hone, hone]
    rfl
  · obtain ⟨n, hn⟩ : ∃ n, d.blocks - 1 = n + 1 := ⟨d.blocks - 2, by omega⟩
    obtain ⟨m, hm⟩ : ∃ m, d.count 1 = m + 1 := ⟨d.count 1 - 1, by
      have hpos := d.count_pos (show 1 < d.blocks by omega)
      omega⟩
    rw [if_neg hone, hn, List.range_succ_eq_map, List.flatMap_cons, Directory.blockRecords, hm,
      List.range_succ_eq_map]
    exact UInt32.add_zero _

theorem Directory.entry_empty (d : Directory mem base inode) (h : d.blocks = 0) (index : UInt32) :
    d.entry index = 0 := by
  rw [Directory.entry, Directory.records, h]
  rfl

/-- The first block is where the reader looks for it. -/
theorem Directory.first (d : Directory mem base inode) (h : 0 < d.blocks) :
    ext2InodeblockGet mem 0 inode (base + 1024) = d.block 0 := by
  rw [(d.placed 0 h (by omega)).2]
  exact (inodeblock_direct (by decide)).value

theorem Directory.first_empty (d : Directory mem base inode) (h : d.blocks = 0) :
    ext2InodeblockGet mem 0 inode (base + 1024) = 0 := by
  rw [ext2InodeblockGet, if_pos (by decide), if_pos (d.empty h)]

/-! ### The walk -/

/-- What the walk leaves with: at the index, or behind the end of the directory before it. -/
theorem direntry_val {superblock index : UInt32} {k n : ℕ} (hk : k ≤ index.toNat)
    (hbefore : ∀ j < k, entryOffset mem (ext2InodeblockGet mem 0 inode superblock) j <
        (ext2BlocksizeGet mem superblock).toNat ∧
      entryOffset mem (ext2InodeblockGet mem 0 inode superblock) j ≤ (Inode.size mem inode).toNat)
    (hend : k = index.toNat ∨
      (Inode.size mem inode).toNat < entryOffset mem (ext2InodeblockGet mem 0 inode superblock) k)
    (hn : k < n) :
    (ReadBy.ext2DirentryGet n index inode superblock mem).1 =
      some (if k = index.toNat then ext2InodeblockGet mem 0 inode superblock +
        UInt32.ofNat (entryOffset mem (ext2InodeblockGet mem 0 inode superblock) k) else 0) := by
  have hindex := index.toNat_lt
  have hbs := (blocksize_shape mem superblock).1
  rw [ReadBy.ext2DirentryGet, bind_val, inodeblockGet_val, Option.bind_some]
  generalize ext2InodeblockGet mem 0 inode superblock = block at *
  have hin : ∀ j < k, entryOffset mem block j < (ext2BlocksizeGet mem superblock).toNat :=
    fun j hj => (hbefore j hj).1
  have hwalk : (direntryNext mem inode superblock)^[k] (cursorAt mem block 0) =
      cursorAt mem block k := direntry_walk hin
  have hcursor : (UInt32.ofNat k).toNat = k := toNat_ofNat_of_lt (by omega)
  have hoffset : (UInt32.ofNat (entryOffset mem block k)).toNat = entryOffset mem block k :=
    toNat_ofNat_of_lt (entryOffset_lt hin)
  have hturn : Turn _ mem _ _ _ := direntryStep_turn index inode superblock
  refine (hturn.val_of_first k (cursorAt mem block 0) (fun j hj => ?_) ?_ n hn).trans ?_
  rotate_right
  · rw [hwalk, direntryEnd]
    by_cases hlast : k = index.toNat
    · have hi : (cursorAt mem block k).i = index := by
        rw [cursorAt, hlast, ofNat_toNat]
      rw [hi, if_neg (UInt32.lt_irrefl index), if_pos rfl, if_pos hlast]
      rfl
    · rw [if_pos (UInt32.lt_iff_toNat_lt.2 (by rw [cursorAt, hcursor]; omega)), if_neg hlast]
  · have hj' := hbefore j hj
    rw [direntry_walk fun i hi => hin i (by omega), UInt32.lt_iff_toNat_lt, UInt32.lt_iff_toNat_lt,
      cursorAt, toNat_ofNat_of_lt (by omega), toNat_ofNat_of_lt (by omega)]
    omega
  · rw [hwalk, UInt32.lt_iff_toNat_lt, UInt32.lt_iff_toNat_lt, cursorAt, hcursor, hoffset]
    omega

/-- In the first block, and just behind it, the walk ends at the place it has counted to. -/
theorem Directory.val (d : Directory mem base inode) {index : UInt32} {n : ℕ} (h : 0 < d.blocks)
    (hindex : index.toNat ≤ d.count 0) (hn : index.toNat < n) :
    (ReadBy.ext2DirentryGet n index inode (base + 1024) mem).1 =
      some (d.block 0 + UInt32.ofNat (entryOffset mem (d.block 0) index.toNat)) := by
  have hfirst := d.first h
  have hsize := d.size
  have hbefore : ∀ j < index.toNat,
      entryOffset mem (ext2InodeblockGet mem 0 inode (base + 1024)) j <
          (ext2BlocksizeGet mem (base + 1024)).toNat ∧
        entryOffset mem (ext2InodeblockGet mem 0 inode (base + 1024)) j ≤
          (Inode.size mem inode).toNat := by
    intro j hj
    have hlt := d.entryOffset_lt h (show j < d.count 0 by omega)
    have hle := Nat.le_mul_of_pos_right (ext2BlocksizeGet mem (base + 1024)).toNat h
    rw [hfirst, hsize]
    exact ⟨hlt, by omega⟩
  rw [direntry_val le_rfl hbefore (Or.inl rfl) hn, if_pos rfl, hfirst]

/-- Past that it never ends. -/
theorem Directory.index_le (d : Directory mem base inode) {index : UInt32} (h : 0 < d.blocks)
    (hok : DirentryOk d index) : index.toNat ≤ d.count 0 := by
  obtain ⟨turns, hval⟩ := hok
  have hends : DirentryEnds mem (base + 1024) inode index := by
    refine (direntry_returns_iff index inode).1 ⟨turns, ?_⟩
    rw [hval turns le_rfl]
    exact Option.some_ne_none _
  by_contra hgt
  have hle := Nat.le_mul_of_pos_right (ext2BlocksizeGet mem (base + 1024)).toNat h
  have hsize := d.size
  rcases hends (d.count 0) (by omega) with hin | hend
  · rw [d.first h, d.tiled 0 h] at hin
    exact Nat.lt_irrefl _ hin
  · rw [d.first h, d.tiled 0 h] at hend
    omega

theorem direntry_ok_nonempty (d : Directory mem base inode) (index : UInt32) (h : 0 < d.blocks) :
    DirentryOk d index ↔ DirentryMet d index := by
  rw [DirentryMet, if_neg (by omega)]
  have hbehind : index.toNat = d.count 0 →
      d.block 0 + UInt32.ofNat (entryOffset mem (d.block 0) index.toNat) =
        d.block 0 + ext2BlocksizeGet mem (base + 1024) := by
    intro heq
    rw [heq, d.tiled 0 h, ofNat_toNat]
  constructor
  · intro hok
    have hle := d.index_le h hok
    obtain ⟨turns, hval⟩ := hok
    rcases Nat.lt_or_eq_of_le hle with hlt | heq
    · exact Or.inl hlt
    · refine Or.inr ⟨heq, ?_⟩
      have hsame := (d.val h hle (Nat.lt_succ_of_le (Nat.le_max_right turns _))).symm.trans
        (hval _ (Nat.le_succ_of_le (Nat.le_max_left turns index.toNat)))
      rw [← hbehind heq, ← d.entry_second h heq]
      exact Option.some.inj hsame
  · rintro (hlt | ⟨heq, hnext⟩)
    · refine ⟨index.toNat + 1, fun n hn => ?_⟩
      rw [d.val h hlt.le hn, d.entry_first h hlt]
    · refine ⟨index.toNat + 1, fun n hn => ?_⟩
      rw [d.val h heq.le hn, hbehind heq, hnext, d.entry_second h heq]

theorem direntry_ok_empty (d : Directory mem base inode) (index : UInt32) (h : d.blocks = 0) :
    DirentryOk d index ↔ DirentryMet d index := by
  rw [DirentryMet, if_pos h]
  have hfirst := d.first_empty h
  have hsize : (Inode.size mem inode).toNat = 0 := by
    rw [d.size, h, Nat.mul_zero]
  have hbs := d.blocksize
  have hone : entryOffset mem 0 1 = (recLen mem 0).toNat := Nat.zero_add _
  -- with a length of 0 at address zero every record is there
  have hstay : recLen mem 0 = 0 → ∀ k, entryOffset mem 0 k = 0 := by
    intro hlen k
    induction k with
    | zero => rfl
    | succ k ih =>
      rw [entryOffset, ih, show (0 : UInt32) + UInt32.ofNat 0 = 0 from rfl, hlen]
      rfl
  have hval : ∀ {k n : ℕ}, k ≤ index.toNat → (∀ j < k, entryOffset mem 0 j = 0) →
      (k = index.toNat ∨ 0 < entryOffset mem 0 k) → k < n →
      (ReadBy.ext2DirentryGet n index inode (base + 1024) mem).1 =
        some (if k = index.toNat then UInt32.ofNat (entryOffset mem 0 k) else 0) := by
    intro k n hk hbefore hend hn
    rw [← hsize, ← hfirst] at hend
    have hin : ∀ j < k, entryOffset mem (ext2InodeblockGet mem 0 inode (base + 1024)) j <
          (ext2BlocksizeGet mem (base + 1024)).toNat ∧
        entryOffset mem (ext2InodeblockGet mem 0 inode (base + 1024)) j ≤
          (Inode.size mem inode).toNat := by
      intro j hj
      rw [hfirst, hbefore j hj]
      exact ⟨by omega, Nat.zero_le _⟩
    rw [direntry_val hk hin hend hn, hfirst, UInt32.zero_add]
  constructor
  · rintro ⟨turns, hok⟩ rfl
    have hsame := (hval (k := 1) le_rfl (fun j hj => by
      obtain rfl : j = 0 := by omega
      rfl) (Or.inl rfl) (Nat.lt_succ_of_le (Nat.le_max_right turns 1))).symm.trans
        (hok _ (Nat.le_succ_of_le (Nat.le_max_left turns 1)))
    rw [if_pos (show 1 = (1 : UInt32).toNat from rfl), d.entry_empty h, hone] at hsame
    have hzero := congrArg UInt32.toNat (Option.some.inj hsame)
    have hlt := (recLen mem 0).toNat_lt
    rw [toNat_ofNat_of_lt (by omega)] at hzero
    exact UInt16.toNat_inj.1 hzero
  · intro hlen
    by_cases hzero : recLen mem 0 = 0
    · refine ⟨index.toNat + 1, fun n hn => ?_⟩
      rw [hval le_rfl (fun j _ => hstay hzero j) (Or.inl rfl) hn, if_pos rfl, hstay hzero,
        d.entry_empty h]
      rfl
    · have hpos : 0 < (recLen mem 0).toNat := by
        refine Nat.pos_of_ne_zero fun h0 => hzero (UInt16.toNat_inj.1 h0)
      have hne : index.toNat ≠ 1 := fun h1 => hzero (hlen (eq_of_toNat h1))
      rcases Nat.lt_or_ge 0 index.toNat with hindex | hindex
      · refine ⟨2, fun n hn => ?_⟩
        rw [hval (k := 1) (by omega) (fun j hj => by
          obtain rfl : j = 0 := by omega
          rfl) (Or.inr (by rw [hone]; exact hpos)) hn, if_neg (by omega), d.entry_empty h]
      · refine ⟨1, fun n hn => ?_⟩
        rw [hval (k := 0) (by omega) (fun j hj => absurd hj (Nat.not_lt_zero j))
          (Or.inl (by omega)) hn, if_pos (by omega), d.entry_empty h]
        rfl

end Directory

/-- **Going to a record.**  For every directory and index the walk ends with the record at the index
exactly when it does not have to leave the first block, or what follows that in memory happens to be
right. -/
theorem direntry_ok_iff {mem : Mem} {base inode : UInt32} (d : Directory mem base inode)
    (index : UInt32) : DirentryOk d index ↔ DirentryMet d index := by
  rcases Nat.eq_zero_or_pos d.blocks with h | h
  · exact direntry_ok_empty d index h
  · exact direntry_ok_nonempty d index h

/-- The two blocks of the file of `image256` as those of a directory, with one record each. -/
def imageDirectory : Mem := write16 (write16 image256 0x102804 1024) 0x102C04 1024

def directoryTwo : Directory imageDirectory 0x100000 0x101500 where
  blocks := 2
  block j := 0x102800 + 0x400 * UInt32.ofNat j
  count _ := 1
  log := by decide
  size := by decide
  placed := by decide
  empty := by decide
  lengths := by decide
  tiled := by decide

/-- **The first index past the end** of the two blocks is never come to. -/
theorem direntry_never_ends : ¬ DirentryOk directoryTwo 2 := by
  intro h
  have hle := directoryTwo.index_le (by decide) h
  exact absurd hle (by decide)

end CometOS
