import CometOS.Ext2Return
import CometOS.Ext2Inode

/-!
# What the ext2 reader reads

The block numbers, the inode tables and the lengths of the records are taken from the image as they
are, and no pointer made from them is compared with the image's end.  For each function of the
reader this says which pointers have to stay inside for all it reads to be inside.
-/

namespace CometOS

open ByteMemory CString Reader Word32

/-! ### The image -/

/-- How many bytes the image has, by its superblock. -/
def imageLength (mem : Mem) (base : UInt32) : ℕ :=
  (Superblock.blockTotal mem (base + 1024)).toNat * (ext2BlocksizeGet mem (base + 1024)).toNat

/-- Byte `a` is one of the image at `base`. -/
def InImage (mem : Mem) (base a : UInt32) : Prop := (a - base).toNat < imageLength mem base

/-- The superblock lies inside. -/
def SuperblockIn (mem : Mem) (base : UInt32) : Prop := 2048 ≤ imageLength mem base

section Straight

variable {mem : Mem} {base : UInt32} {α : Type}

/-- The image is made of whole KiB, so either all of the superblock is inside or none of it. -/
theorem covered_superblock (mem : Mem) (base : UInt32) (k : ℕ) {n : ℕ} (hn : 0 < n)
    (hk : k + n ≤ 1024) :
    Covered (InImage mem base) (base + 1024 + UInt32.ofNat k) n ↔ SuperblockIn mem base := by
  have hblock : imageLength mem base % 1024 = 0 := by
    rw [imageLength, Nat.mul_mod, (blocksize_shape mem (base + 1024)).2]
    rfl
  have hplace : ∀ i < n, (base + 1024 + UInt32.ofNat k + UInt32.ofNat i - base).toNat =
      1024 + k + i := by
    intro i hi
    have hsum : base + 1024 + UInt32.ofNat k + UInt32.ofNat i - base =
        UInt32.ofNat (1024 + k + i) := by
      rw [UInt32.ofNat_add, UInt32.ofNat_add, show UInt32.ofNat 1024 = 1024 from rfl]
      grind
    rw [hsum, toNat_ofNat_of_lt (by omega)]
  unfold Covered InImage SuperblockIn
  constructor
  · intro h
    have hlast := h (n - 1) (by omega)
    rw [hplace _ (by omega)] at hlast
    omega
  · intro h i hi
    rw [hplace i hi]
    omega

theorem within_blocksize :
    Within (InImage mem base) (ReadBy.ext2BlocksizeGet (base + 1024)) mem ↔
      SuperblockIn mem base := by
  unfold ReadBy.ext2BlocksizeGet
  rw [within_map, within_load32]
  exact covered_superblock mem base 24 (by omega) (by omega)

theorem within_blocksize_bind {k : UInt32 → Prog α} :
    Within (InImage mem base) (ReadBy.ext2BlocksizeGet (base + 1024) >>= k) mem ↔
      SuperblockIn mem base ∧
        Within (InImage mem base) (k (ext2BlocksizeGet mem (base + 1024))) mem := by
  rw [within_bind_of (blocksize_val _), within_blocksize]

theorem within_field {k : UInt32} {p : UInt32 → Prog α} (hk : k.toNat + 4 ≤ 1024) :
    Within (InImage mem base) (Prog.load32 (base + 1024 + k) >>= p) mem ↔
      SuperblockIn mem base ∧
        Within (InImage mem base) (p (read32 mem (base + 1024 + k))) mem := by
  have h := covered_superblock mem base k.toNat (n := 4) (by omega) hk
  rw [ofNat_toNat] at h
  rw [within_load32_bind, h]

theorem within_bgDes (g : UInt32) :
    Within (InImage mem base) (ReadBy.ext2BgDesGet g (base + 1024)) mem ↔
      SuperblockIn mem base := by
  unfold ReadBy.ext2BgDesGet ReadBy.ext2BlockgroupGet
  rw [within_bind]
  simp only [within_blocksize_bind, within_field (k := 32) (by decide), within_pure, and_true,
    and_self]
  constructor
  · exact fun h => h.1
  · exact fun h => ⟨h, fun _ _ => h⟩

theorem within_bgDes_bind {k : UInt32 → Prog α} (g : UInt32) :
    Within (InImage mem base) (ReadBy.ext2BgDesGet g (base + 1024) >>= k) mem ↔
      SuperblockIn mem base ∧
        Within (InImage mem base) (k (ext2BgDesGet mem g (base + 1024))) mem := by
  rw [within_bind_of (bgDes_val _ _), within_bgDes]

theorem within_blockGet (block : UInt32) :
    Within (InImage mem base) (ReadBy.ext2BlockGet block (base + 1024)) mem ↔
      (block ≠ 0 → SuperblockIn mem base) := by
  unfold ReadBy.ext2BlockGet
  rw [within_ite, within_blocksize_bind, UInt32.le_zero_iff]
  constructor
  · exact fun h hne => (h.2 hne).1
  · exact fun h => ⟨fun _ => within_pure _, fun hne => ⟨h hne, within_pure _⟩⟩

theorem within_blockGet_bind {k : UInt32 → Prog α} (block : UInt32) :
    Within (InImage mem base) (ReadBy.ext2BlockGet block (base + 1024) >>= k) mem ↔
      (block ≠ 0 → SuperblockIn mem base) ∧
        Within (InImage mem base) (k (ext2BlockGet mem block (base + 1024))) mem := by
  rw [within_bind_of (blockGet_val _ _), within_blockGet]

/-- The reader comes to look into a group descriptor for an inode. -/
def ReachesGroup (mem : Mem) (superblock inode : UInt32) : Prop :=
  ¬ Superblock.inodeTotal mem superblock < inode ∧
    Superblock.inodePerGroup mem superblock ≠ 0 ∧ Superblock.blockPerGroup mem superblock ≠ 0 ∧
    ¬ Superblock.blockTotal mem superblock / Superblock.blockPerGroup mem superblock <
      (inode - 1) / Superblock.inodePerGroup mem superblock

/-- The word that `ext2_inode_get` takes the inode table from is inside, if it comes to that. -/
def InodeGetIn (mem : Mem) (base inode : UInt32) : Prop :=
  SuperblockIn mem base ∧ (ReachesGroup mem (base + 1024) inode →
    Covered (InImage mem base)
      (ext2BgDesGet mem ((inode - 1) / Superblock.inodePerGroup mem (base + 1024)) (base + 1024) + 8)
      4)

theorem inodeGet_within (inode : UInt32) :
    Within (InImage mem base) (ReadBy.ext2InodeGet inode (base + 1024)) mem ↔
      InodeGetIn mem base inode := by
  have hfirst := covered_superblock mem base 0 (n := 4) (by omega) (by omega)
  have hsize := covered_superblock mem base 88 (n := 2) (by omega) (by omega)
  rw [show UInt32.ofNat 0 = 0 from rfl, UInt32.add_zero] at hfirst
  rw [show UInt32.ofNat 88 = 88 from rfl] at hsize
  unfold ReadBy.ext2InodeGet InodeGetIn ReachesGroup
  rw [within_load32_bind, hfirst]
  refine and_congr_right fun hsuper => ?_
  simp only [within_ite, within_field (k := 40) (by decide), within_field (k := 32) (by decide),
    within_field (k := 4) (by decide), within_bgDes_bind, within_blocksize_bind, within_pure,
    within_trap, hsuper, true_and, implies_true]
  simp only [within_load32_bind, within_load16_bind, hsize, hsuper, within_pure, and_true]
  constructor
  · exact fun h ⟨htotal, hinodes, hblocks, hgroup⟩ => h htotal hinodes hblocks hgroup
  · exact fun h htotal hinodes hblocks hgroup => h ⟨htotal, hinodes, hblocks, hgroup⟩

/-! ### Blocks of a file -/

/-- The words that `ext2_inodeblock_get` takes the block's number from are inside: one of the inode,
or two, of which the second is in the block that the first names. -/
def InodeblockIn (mem : Mem) (base block inode : UInt32) : Prop :=
  (block < 12 → Covered (InImage mem base) (inode + 40 + 4 * block) 4 ∧
    (Inode.block mem inode block ≠ 0 → SuperblockIn mem base)) ∧
  (¬ block < 12 → SuperblockIn mem base ∧
    (block < 12 + ext2BlocksizeGet mem (base + 1024) / 4 →
      Covered (InImage mem base) (inode + 40 + 4 * 12) 4 ∧
      Covered (InImage mem base)
        (ext2BlockGet mem (Inode.block mem inode 12) (base + 1024) + 4 * (block - 12)) 4))

theorem inodeblockGet_within (block inode : UInt32) :
    Within (InImage mem base) (ReadBy.ext2InodeblockGet block inode (base + 1024)) mem ↔
      InodeblockIn mem base block inode := by
  unfold ReadBy.ext2InodeblockGet InodeblockIn
  simp only [within_ite, within_load32_bind, within_blocksize_bind, within_blockGet_bind,
    within_blockGet, within_pure]
  constructor
  · rintro ⟨hdirect, hindirect⟩
    refine ⟨fun hlt => ?_, fun hge => ?_⟩
    · obtain ⟨hword, _, hrest⟩ := hdirect hlt
      exact ⟨hword, fun hne => (hrest hne).2 hne⟩
    · obtain ⟨hsuper, hrest, _⟩ := hindirect hge
      refine ⟨hsuper, fun hin => ?_⟩
      obtain ⟨hword, _, hentry, _, _⟩ := hrest hin
      exact ⟨hword, hentry⟩
  · rintro ⟨hdirect, hindirect⟩
    refine ⟨fun hlt => ?_, fun hge => ?_⟩
    · obtain ⟨hword, hsuper⟩ := hdirect hlt
      exact ⟨hword, fun _ => trivial, fun hne => ⟨hword, fun _ => hsuper hne⟩⟩
    · obtain ⟨hsuper, hrest⟩ := hindirect hge
      refine ⟨hsuper, fun hin => ?_, fun _ => trivial⟩
      obtain ⟨hword, hentry⟩ := hrest hin
      exact ⟨hword, fun _ => hsuper, hentry, fun _ => trivial, fun _ => ⟨hentry, fun _ => hsuper⟩⟩

theorem inodeblockGet_within_bind {k : UInt32 → Prog α} (block inode : UInt32) :
    Within (InImage mem base) (ReadBy.ext2InodeblockGet block inode (base + 1024) >>= k) mem ↔
      InodeblockIn mem base block inode ∧
        Within (InImage mem base) (k (ext2InodeblockGet mem block inode (base + 1024))) mem := by
  rw [within_bind_of (inodeblockGet_val _ _ _), inodeblockGet_within]

theorem inodeGet_within_bind {k : UInt32 → Prog α} (inode : UInt32) :
    Within (InImage mem base) (ReadBy.ext2InodeGet inode (base + 1024) >>= k) mem ↔
      InodeGetIn mem base inode ∧ (NoZeroDivisor mem (base + 1024) inode →
        Within (InImage mem base) (k (inodeSlot mem (base + 1024) inode)) mem) := by
  rw [within_bind, inodeGet_within, inodeGet_val]
  refine and_congr_right fun _ => ?_
  constructor
  · exact fun h hdiv => h _ (inodeGet_of_noZeroDivisor hdiv)
  · intro h a ha
    have hdiv : NoZeroDivisor mem (base + 1024) inode :=
      inodeGet_ne_none.1 (by rw [ha]; exact Option.some_ne_none a)
    rw [inodeGet_of_noZeroDivisor hdiv] at ha
    obtain rfl := Option.some.inj ha
    exact h hdiv

theorem within_memcpyFrom (src size : UInt32) (buffer : Buffer) :
    Within (InImage mem base) (ReadBy.memcpyFrom src size buffer) mem ↔
      Covered (InImage mem base) src size.toNat :=
  ⟨fun h => h ⟨src, size.toNat⟩ (List.mem_singleton.2 rfl), fun h r hr => by
    obtain rfl := List.mem_singleton.1 hr
    exact h⟩

/-! ### Reading a file -/

/-- The blocks that the request reaches into can be looked up inside, and all the bytes asked for
are inside. -/
def ReadIn (mem : Mem) (base offset : UInt32) (buffer : Option Buffer) (size inode : UInt32) :
    Prop :=
  buffer ≠ none → inode ≠ 0 → base + 1024 ≠ 0 →
    SuperblockIn mem base ∧
    (∀ b, offset.toNat / (ext2BlocksizeGet mem (base + 1024)).toNat ≤ b →
      b ≤ (offset.toNat + (size.toNat - 1)) / (ext2BlocksizeGet mem (base + 1024)).toNat →
      InodeblockIn mem base (UInt32.ofNat b) inode) ∧
    ∀ i < size.toNat, InImage mem base
      (ext2InodeblockGet mem
        (UInt32.ofNat ((offset.toNat + i) / (ext2BlocksizeGet mem (base + 1024)).toNat)) inode
        (base + 1024) +
        UInt32.ofNat ((offset.toNat + i) % (ext2BlocksizeGet mem (base + 1024)).toNat))

theorem readStep_within (inode : UInt32) (s : ReadState) :
    Within (InImage mem base) (ReadBy.ext2ReadStep inode (base + 1024) s) mem ↔
      InodeblockIn mem base s.block inode ∧ SuperblockIn mem base ∧
        Covered (InImage mem base)
          (ext2InodeblockGet mem s.block inode (base + 1024) + s.blockOffset)
          (min s.index.toNat (s.left mem (base + 1024)).toNat) := by
  have hle : s.index ≤ ext2BlocksizeGet mem (base + 1024) - s.blockOffset ↔
      s.index.toNat ≤ (s.left mem (base + 1024)).toNat := UInt32.le_iff_toNat_le
  unfold ReadBy.ext2ReadStep
  rw [inodeblockGet_within_bind, within_blocksize_bind]
  refine and_congr_right fun _ => and_congr_right fun hsuper => ?_
  by_cases hlast : s.index ≤ ext2BlocksizeGet mem (base + 1024) - s.blockOffset
  · rw [if_pos hlast, within_map, within_memcpyFrom, Nat.min_eq_left (hle.1 hlast)]
  · have hmin : min s.index.toNat (s.left mem (base + 1024)).toNat =
        (s.left mem (base + 1024)).toNat := Nat.min_eq_right (by have := mt hle.2 hlast; omega)
    rw [if_neg hlast, within_blocksize_bind, within_bind, hmin, within_memcpyFrom]
    simp only [within_blocksize_bind, within_pure, hsuper, true_and, and_true, implies_true]
    exact Iff.rfl

end Straight

/-! ### The turns of a request -/

/-- Where the block starts that is `k` blocks after the one `offset` is in. -/
def blockStart (B offset k : ℕ) : ℕ := (offset / B + k) * B

section Turns

variable {mem : Mem} {superblock : UInt32} {B offset : ℕ}

theorem blockStart_succ (B offset k : ℕ) : blockStart B offset (k + 1) = blockStart B offset k + B := by
  rw [blockStart, blockStart, ← Nat.add_assoc, Nat.succ_mul]

theorem blockStart_zero (offset : ℕ) (hB : 0 < B) :
    blockStart B offset 0 ≤ offset ∧ offset < blockStart B offset 0 + B := by
  have hdm := Nat.div_add_mod offset B
  have hlt := Nat.mod_lt offset hB
  rw [Nat.mul_comm] at hdm
  rw [blockStart, Nat.add_zero]
  omega

theorem blockStart_mono (B offset : ℕ) : Monotone (blockStart B offset) :=
  monotone_nat_of_le_succ fun k => by rw [blockStart_succ]; exact Nat.le_add_right _ _

/-- A position is in the block it is divided into. -/
theorem blockStart_div {x k : ℕ} (hlo : blockStart B offset k ≤ x)
    (hhi : x < blockStart B offset (k + 1)) :
    x / B = offset / B + k ∧ x % B = x - blockStart B offset k := by
  have hB : 0 < B := by
    rw [blockStart_succ] at hhi
    omega
  have hdiv : x / B = offset / B + k := Nat.div_eq_of_lt_le hlo hhi
  refine ⟨hdiv, ?_⟩
  have hdm := Nat.div_add_mod x B
  rw [hdiv, Nat.mul_comm] at hdm
  rw [blockStart]
  omega

/-- And only there. -/
theorem blockStart_of_div {x k : ℕ} (hB : 0 < B) (h : x / B = offset / B + k) :
    blockStart B offset k ≤ x ∧ x < blockStart B offset (k + 1) := by
  have hdm := Nat.div_add_mod x B
  have hlt := Nat.mod_lt x hB
  rw [h, Nat.mul_comm] at hdm
  rw [blockStart_succ, blockStart]
  omega

/-- What a request works on after `k` whole turns: block `k` from where it starts, and what is left
from there on. -/
structure ReadAt (mem : Mem) (superblock offset size : UInt32) (k : ℕ) (s : ReadState) : Prop where
  block : s.block = UInt32.ofNat
    (offset.toNat / (ext2BlocksizeGet mem superblock).toNat + k)
  blockOffset : s.blockOffset.toNat =
    max offset.toNat (blockStart (ext2BlocksizeGet mem superblock).toNat offset.toNat k) -
      blockStart (ext2BlocksizeGet mem superblock).toNat offset.toNat k
  index : s.index.toNat = offset.toNat + size.toNat -
    max offset.toNat (blockStart (ext2BlocksizeGet mem superblock).toNat offset.toNat k)

/-- The request reaches into that block. -/
def Reaches (mem : Mem) (superblock offset size : UInt32) (k : ℕ) : Prop :=
  k = 0 ∨ blockStart (ext2BlocksizeGet mem superblock).toNat offset.toNat k <
    offset.toNat + size.toNat

section Position

variable {offset size inode : UInt32} {k : ℕ} {s : ReadState}

/-- What the block still has then. -/
theorem ReadAt.left_toNat (h : ReadAt mem superblock offset size k s)
    (hbs : ext2BlocksizeGet mem superblock ≠ 0) :
    (s.left mem superblock).toNat =
      blockStart (ext2BlocksizeGet mem superblock).toNat offset.toNat (k + 1) -
        max offset.toNat (blockStart (ext2BlocksizeGet mem superblock).toNat offset.toNat k) := by
  obtain ⟨hlo, hhi⟩ := blockStart_zero offset.toNat (toNat_pos hbs)
  have hmono := blockStart_mono (ext2BlocksizeGet mem superblock).toNat offset.toNat (Nat.zero_le k)
  have hoff := h.blockOffset
  rw [blockStart_succ, ReadState.left, toNat_sub_of_le (by omega)]
  omega

/-- It goes on exactly when the request reaches into the next block. -/
theorem ReadAt.goes_iff (h : ReadAt mem superblock offset size k s)
    (hbs : ext2BlocksizeGet mem superblock ≠ 0) (hk : Reaches mem superblock offset size k) :
    ¬ s.index ≤ s.left mem superblock ↔ Reaches mem superblock offset size (k + 1) := by
  obtain ⟨hlo, hhi⟩ := blockStart_zero offset.toNat (toNat_pos hbs)
  have hleft := h.left_toNat hbs
  have hindex := h.index
  have hsucc := blockStart_succ (ext2BlocksizeGet mem superblock).toNat offset.toNat k
  have hmono := blockStart_mono (ext2BlocksizeGet mem superblock).toNat offset.toNat (Nat.zero_le k)
  rw [UInt32.le_iff_toNat_le, Reaches]
  rw [Reaches] at hk
  rcases hk with rfl | hk
  · omega
  · omega

theorem ReadAt.next (h : ReadAt mem superblock offset size k s)
    (hbs : ext2BlocksizeGet mem superblock ≠ 0)
    (hnext : Reaches mem superblock offset size (k + 1)) :
    ReadAt mem superblock offset size (k + 1) (ext2ReadTurn mem inode superblock s) := by
  obtain ⟨hlo, hhi⟩ := blockStart_zero offset.toNat (toNat_pos hbs)
  have hleft := h.left_toNat hbs
  have hindex := h.index
  have hsucc := blockStart_succ (ext2BlocksizeGet mem superblock).toNat offset.toNat k
  have hmono := blockStart_mono (ext2BlocksizeGet mem superblock).toNat offset.toNat (Nat.zero_le k)
  have hreach := hnext.resolve_left (Nat.succ_ne_zero k)
  refine ⟨?_, ?_, ?_⟩
  · show s.block + 1 = _
    rw [h.block, ← Nat.add_assoc, ofNat_succ]
  · show (0 : UInt32).toNat = _
    rw [show (0 : UInt32).toNat = 0 from rfl]
    omega
  · show (s.index - s.left mem superblock).toNat = _
    rw [toNat_sub_of_le (by omega)]
    omega

theorem readAt_zero (hbs : ext2BlocksizeGet mem superblock ≠ 0) (b : Buffer) :
    ReadAt mem superblock offset size 0
      ⟨size, offset / ext2BlocksizeGet mem superblock, offset % ext2BlocksizeGet mem superblock,
        b⟩ := by
  obtain ⟨hlo, hhi⟩ := blockStart_zero offset.toNat (toNat_pos hbs)
  obtain ⟨_, hmod⟩ := blockStart_div hlo (by rw [blockStart_succ]; exact hhi)
  refine ⟨?_, ?_, ?_⟩
  · rw [Nat.add_zero, ← UInt32.toNat_div, ofNat_toNat]
  · rw [UInt32.toNat_mod, hmod]
    omega
  · show size.toNat = _
    omega

/-- **The turns of a request** go on while it reaches into the next block, each at its place. -/
theorem read_walk (hbs : ext2BlocksizeGet mem superblock ≠ 0)
    (h0 : ReadAt mem superblock offset size 0 s) (k : ℕ) :
    ((∀ j < k, ¬ ((ext2ReadTurn mem inode superblock)^[j] s).index ≤
        ((ext2ReadTurn mem inode superblock)^[j] s).left mem superblock) ↔
      Reaches mem superblock offset size k) ∧
    (Reaches mem superblock offset size k →
      ReadAt mem superblock offset size k ((ext2ReadTurn mem inode superblock)^[k] s)) := by
  induction k with
  | zero => exact ⟨iff_of_true (fun j hj => absurd hj (Nat.not_lt_zero j)) (Or.inl rfl), fun _ => h0⟩
  | succ k ih =>
    obtain ⟨hbefore, hat⟩ := ih
    have hback : Reaches mem superblock offset size (k + 1) → Reaches mem superblock offset size k := by
      intro h
      have hreach := h.resolve_left (Nat.succ_ne_zero k)
      rw [blockStart_succ] at hreach
      exact Or.inr (by omega)
    constructor
    · constructor
      · intro h
        have hk := hbefore.1 fun j hj => h j (by omega)
        exact ((hat hk).goes_iff hbs hk).1 (h k (Nat.lt_succ_self k))
      · intro h j hj
        have hk := hback h
        rcases Nat.lt_succ_iff_lt_or_eq.1 hj with hlt | rfl
        · exact hbefore.2 hk j hlt
        · exact ((hat hk).goes_iff hbs hk).2 h
    · intro h
      rw [Function.iterate_succ_apply']
      exact (hat (hback h)).next hbs h

end Position

end Turns

section Read

variable {mem : Mem} {base offset size inode : UInt32}

theorem SuperblockIn.blocksize_ne (h : SuperblockIn mem base) :
    ext2BlocksizeGet mem (base + 1024) ≠ 0 := by
  intro hzero
  rw [SuperblockIn, imageLength, hzero] at h
  simp at h

/-- What one turn reads is the part of the request that its block holds. -/
theorem turn_bytes_iff {k : ℕ} {s : ReadState} (h : ReadAt mem (base + 1024) offset size k s)
    (hbs : ext2BlocksizeGet mem (base + 1024) ≠ 0) :
    Covered (InImage mem base)
        (ext2InodeblockGet mem s.block inode (base + 1024) + s.blockOffset)
        (min s.index.toNat (s.left mem (base + 1024)).toNat) ↔
      ∀ i < size.toNat, (offset.toNat + i) / (ext2BlocksizeGet mem (base + 1024)).toNat =
          offset.toNat / (ext2BlocksizeGet mem (base + 1024)).toNat + k →
        InImage mem base
          (ext2InodeblockGet mem
            (UInt32.ofNat ((offset.toNat + i) / (ext2BlocksizeGet mem (base + 1024)).toNat)) inode
            (base + 1024) +
            UInt32.ofNat ((offset.toNat + i) % (ext2BlocksizeGet mem (base + 1024)).toNat)) := by
  have hleft := h.left_toNat hbs
  have hindex := h.index
  have hoff := h.blockOffset
  have hnumber := h.block
  have hsucc := blockStart_succ (ext2BlocksizeGet mem (base + 1024)).toNat offset.toNat k
  have hpos := toNat_pos hbs
  generalize hB : (ext2BlocksizeGet mem (base + 1024)).toNat = B at *
  have hplace : ∀ x, blockStart B offset.toNat k ≤ offset.toNat + x →
      max offset.toNat (blockStart B offset.toNat k) ≤ offset.toNat + x →
      s.blockOffset + UInt32.ofNat (offset.toNat + x - max offset.toNat (blockStart B offset.toNat k)) =
        UInt32.ofNat (offset.toNat + x - blockStart B offset.toNat k) := by
    intro x h1 h2
    rw [← ofNat_toNat s.blockOffset, hoff, ← UInt32.ofNat_add]
    congr 1
    omega
  unfold Covered
  constructor
  · intro hall i hi hblock
    obtain ⟨hlo, hhi⟩ := blockStart_of_div hpos hblock
    obtain ⟨_, hmod⟩ := blockStart_div hlo hhi
    have hin := hall (offset.toNat + i - max offset.toNat (blockStart B offset.toNat k)) (by omega)
    rw [UInt32.add_assoc, hplace i hlo (by omega)] at hin
    rw [hblock, hmod, ← hnumber]
    exact hin
  · intro hall x hx
    obtain ⟨i, hi⟩ : ∃ i, offset.toNat + i = max offset.toNat (blockStart B offset.toNat k) + x :=
      ⟨max offset.toNat (blockStart B offset.toNat k) + x - offset.toNat, by omega⟩
    have hlo : blockStart B offset.toNat k ≤ offset.toNat + i := by omega
    obtain ⟨hdiv, hmod⟩ := blockStart_div hlo (by omega)
    have hin := hall i (by omega) hdiv
    have hx' : offset.toNat + i - max offset.toNat (blockStart B offset.toNat k) = x := by omega
    rw [hdiv, hmod, ← hnumber, ← hplace i hlo (by omega), hx', ← UInt32.add_assoc] at hin
    exact hin

/-- **The turns of `ext2_read`** stay inside exactly when the request's blocks can be looked up
inside and its bytes are inside. -/
theorem readLoop_within {s : ReadState} (hsuper : SuperblockIn mem base)
    (h0 : ReadAt mem (base + 1024) offset size 0 s) :
    (∀ n, Within (InImage mem base)
        (Prog.loop (ReadBy.ext2ReadStep inode (base + 1024)) n s) mem) ↔
      (∀ b, offset.toNat / (ext2BlocksizeGet mem (base + 1024)).toNat ≤ b →
        b ≤ (offset.toNat + (size.toNat - 1)) / (ext2BlocksizeGet mem (base + 1024)).toNat →
        InodeblockIn mem base (UInt32.ofNat b) inode) ∧
      ∀ i < size.toNat, InImage mem base
        (ext2InodeblockGet mem
          (UInt32.ofNat ((offset.toNat + i) / (ext2BlocksizeGet mem (base + 1024)).toNat)) inode
          (base + 1024) +
          UInt32.ofNat ((offset.toNat + i) % (ext2BlocksizeGet mem (base + 1024)).toNat)) := by
  have hbs := hsuper.blocksize_ne
  have hpos := toNat_pos hbs
  have hreach : ∀ b, offset.toNat / (ext2BlocksizeGet mem (base + 1024)).toNat ≤ b →
      (b ≤ (offset.toNat + (size.toNat - 1)) / (ext2BlocksizeGet mem (base + 1024)).toNat ↔
        Reaches mem (base + 1024) offset size
          (b - offset.toNat / (ext2BlocksizeGet mem (base + 1024)).toNat)) := by
    intro b hb
    obtain ⟨c, rfl⟩ := Nat.exists_eq_add_of_le hb
    obtain ⟨hlo, hhi⟩ := blockStart_zero offset.toNat hpos
    rw [Nat.le_div_iff_mul_le hpos, Nat.add_sub_cancel_left, Reaches, ← blockStart]
    cases c with
    | zero => exact iff_of_true (by omega) (Or.inl rfl)
    | succ c =>
      have hmono := blockStart_mono (ext2BlocksizeGet mem (base + 1024)).toNat offset.toNat (Nat.zero_le c)
      have hsucc := blockStart_succ (ext2BlocksizeGet mem (base + 1024)).toNat offset.toNat c
      omega
  have hwalk := @read_walk mem (base + 1024) offset size inode s hbs h0
  rw [(readStep_turn inode (base + 1024)).within_iff]
  constructor
  · intro hall
    have hturn := fun k (hk : Reaches mem (base + 1024) offset size k) =>
      (readStep_within _ _).1 (hall k ((hwalk k).1.2 hk))
    refine ⟨fun b hlo hhi => ?_, fun i hi => ?_⟩
    · have hk := (hreach b hlo).1 hhi
      have hin := (hturn _ hk).1
      rw [((hwalk _).2 hk).block] at hin
      rwa [show offset.toNat / (ext2BlocksizeGet mem (base + 1024)).toNat +
        (b - offset.toNat / (ext2BlocksizeGet mem (base + 1024)).toNat) = b by omega] at hin
    · have hdiv := Nat.div_le_div_right (c := (ext2BlocksizeGet mem (base + 1024)).toNat)
        (Nat.le_add_right offset.toNat i)
      have hk := (hreach _ hdiv).1 (Nat.div_le_div_right (by omega))
      have hbytes := (turn_bytes_iff ((hwalk _).2 hk) hbs).1 (hturn _ hk).2.2
      exact hbytes i hi (by omega)
  · rintro ⟨hblocks, hbytes⟩ k hk
    have hk := (hwalk k).1.1 hk
    have hat := (hwalk k).2 hk
    rw [readStep_within, hat.block, and_iff_right hsuper, ← hat.block]
    refine ⟨?_, (turn_bytes_iff hat hbs).2 fun i hi _ => hbytes i hi⟩
    have hle := Nat.le_add_right (offset.toNat / (ext2BlocksizeGet mem (base + 1024)).toNat) k
    rw [hat.block]
    refine hblocks _ hle ((hreach _ hle).2 ?_)
    rwa [Nat.add_sub_cancel_left]

/-- **`ext2_read` reads inside** exactly under `ReadIn`. -/
theorem read_within (buffer : Option Buffer) :
    (∀ n, Within (InImage mem base)
        (ReadBy.ext2Read n offset buffer size inode (base + 1024)) mem) ↔
      ReadIn mem base offset buffer size inode := by
  cases buffer with
  | none => exact iff_of_true (fun _ => within_pure _) fun h => absurd rfl h
  | some b =>
    by_cases hnull : inode = 0 ∨ base + 1024 = 0
    · simp only [ReadBy.ext2Read, if_pos hnull]
      refine iff_of_true (fun _ => within_pure _) fun _ hinode hsuper => ?_
      rcases hnull with h | h
      · exact absurd h hinode
      · exact absurd h hsuper
    · simp only [ReadBy.ext2Read, if_neg hnull]
      obtain ⟨hinode, hnonnull⟩ := not_or.1 hnull
      by_cases hsuper : SuperblockIn mem base
      · have hbs := hsuper.blocksize_ne
        have hstart : (ReadBy.ext2ReadStart offset (base + 1024) mem).1 =
            some (offset / ext2BlocksizeGet mem (base + 1024),
              offset % ext2BlocksizeGet mem (base + 1024)) := by
          rw [readStart_val, if_neg hbs]
          split
          · rfl
          · rename_i hzero
            rw [not_not.1 hzero, UInt32.zero_div, UInt32.zero_mod]
        have hreads : Within (InImage mem base) (ReadBy.ext2ReadStart offset (base + 1024)) mem := by
          unfold ReadBy.ext2ReadStart
          simp only [within_ite, within_blocksize_bind, within_pure, within_trap, hsuper, implies_true,
            and_self]
        simp only [within_bind_of hstart, within_map, hreads, true_and]
        rw [readLoop_within hsuper (readAt_zero hbs b)]
        constructor
        · exact fun h _ _ _ => ⟨hsuper, h⟩
        · exact fun h => (h (Option.some_ne_none b) hinode hnonnull).2
      · refine iff_of_false (fun hall => hsuper ?_) fun h =>
          hsuper (h (Option.some_ne_none b) hinode hnonnull).1
        obtain ⟨hread, hrest⟩ := within_bind.1 (hall 1)
        by_cases hoff : offset = 0
        · have h1 := hrest (0, 0) (by rw [readStart_val, if_neg (not_not.2 hoff)])
          rw [within_map, loop_succ, within_bind, readStep_within] at h1
          exact h1.1.2.1
        · unfold ReadBy.ext2ReadStart at hread
          rw [within_ite] at hread
          exact (within_blocksize_bind.1 (hread.1 hoff)).1

end Read

/-! ### Walking a directory -/

/-- What it takes to go on from an entry at `offset`: the directory's size is inside; and, unless the
entry starts behind the end of the directory, the block size is, and the entry's record length; or,
if the entry starts behind the block, what it takes to look up any block of the directory. -/
def EntryIn (mem : Mem) (base inode block : UInt32) (offset : ℕ) : Prop :=
  Covered (InImage mem base) (inode + 4) 4 ∧
  (offset ≤ (Inode.size mem inode).toNat → SuperblockIn mem base ∧
    (offset < (ext2BlocksizeGet mem (base + 1024)).toNat →
      Covered (InImage mem base) (block + UInt32.ofNat offset + 4) 2) ∧
    ((ext2BlocksizeGet mem (base + 1024)).toNat ≤ offset → ∀ b, InodeblockIn mem base b inode))

/-- The first block can be looked up inside, and so can each entry that the walk comes to before
`index`. -/
def DirentryIn (mem : Mem) (base index inode : UInt32) : Prop :=
  InodeblockIn mem base 0 inode ∧
  ∀ k < index.toNat,
    (∀ j < k,
      entryOffset mem (ext2InodeblockGet mem 0 inode (base + 1024)) j <
          (ext2BlocksizeGet mem (base + 1024)).toNat ∧
        entryOffset mem (ext2InodeblockGet mem 0 inode (base + 1024)) j ≤
          (Inode.size mem inode).toNat) →
    EntryIn mem base inode (ext2InodeblockGet mem 0 inode (base + 1024))
      (entryOffset mem (ext2InodeblockGet mem 0 inode (base + 1024)) k)

section Direntry

variable {mem : Mem} {base index inode : UInt32}

theorem direntryStep_within (s : ReadBy.DirCursor) :
    Within (InImage mem base) (ReadBy.ext2DirentryStep index inode (base + 1024) s) mem ↔
      (s.i < index → Covered (InImage mem base) (inode + 4) 4 ∧
        (¬ Inode.size mem inode < s.offset → SuperblockIn mem base ∧
          (¬ ext2BlocksizeGet mem (base + 1024) ≤ s.offset →
            Covered (InImage mem base) (s.block + s.offset + 4) 2) ∧
          (ext2BlocksizeGet mem (base + 1024) ≤ s.offset →
            InodeblockIn mem base (s.blockNumber + 1) inode))) := by
  unfold ReadBy.ext2DirentryStep
  rw [within_ite]
  simp only [within_load32_bind, within_ite, within_blocksize_bind, within_map,
    inodeblockGet_within, within_load16, within_pure, implies_true, true_and, and_true]
  constructor
  · intro h hi
    obtain ⟨hsize, hrest⟩ := h hi
    refine ⟨hsize, fun hin => ?_⟩
    obtain ⟨hsuper, hbehind, hinside⟩ := hrest hin
    exact ⟨hsuper, hinside, hbehind⟩
  · intro h hi
    obtain ⟨hsize, hrest⟩ := h hi
    refine ⟨hsize, fun hin => ?_⟩
    obtain ⟨hsuper, hinside, hbehind⟩ := hrest hin
    exact ⟨hsuper, hbehind, hinside⟩

/-- Behind the block the cursor takes one block after the other. -/
theorem direntry_stuck_block {superblock : UInt32} {s : ReadBy.DirCursor}
    (h : ext2BlocksizeGet mem superblock ≤ s.offset) (m : ℕ) :
    ((direntryNext mem inode superblock)^[m] s).blockNumber = s.blockNumber + UInt32.ofNat m := by
  induction m with
  | zero => exact (UInt32.add_zero _).symm
  | succ m ih =>
    have hle : ext2BlocksizeGet mem superblock ≤
        ((direntryNext mem inode superblock)^[m] s).offset := by
      rw [(direntry_stuck inode h m).1]
      exact h
    rw [Function.iterate_succ_apply', direntryNext, if_pos hle]
    show _ + 1 = _
    rw [ih, ofNat_succ, UInt32.add_assoc]

/-- The cursor at entry `k`, in natural numbers. -/
theorem cursorAt_toNat {superblock block : UInt32} {k : ℕ}
    (h : ∀ j < k, entryOffset mem block j < (ext2BlocksizeGet mem superblock).toNat) :
    (cursorAt mem block k).offset.toNat = entryOffset mem block k :=
  toNat_ofNat_of_lt (entryOffset_lt h)

/-- It is at one of the first `index` entries and not behind the end. -/
theorem cursorAt_goes_iff {superblock block : UInt32} {k : ℕ} (hk : k < 2 ^ 32)
    (h : ∀ j < k, entryOffset mem block j < (ext2BlocksizeGet mem superblock).toNat) :
    ¬ (¬ (cursorAt mem block k).i < index ∨ Inode.size mem inode < (cursorAt mem block k).offset) ↔
      k < index.toNat ∧ entryOffset mem block k ≤ (Inode.size mem inode).toNat := by
  rw [UInt32.lt_iff_toNat_lt, UInt32.lt_iff_toNat_lt, cursorAt_toNat h,
    show (cursorAt mem block k).i.toNat = k from toNat_ofNat_of_lt hk]
  omega

theorem EntryIn.step {block : UInt32} {s : ReadBy.DirCursor}
    (h : EntryIn mem base inode block s.offset.toNat)
    (hblock : s.offset.toNat < (ext2BlocksizeGet mem (base + 1024)).toNat → s.block = block) :
    Within (InImage mem base) (ReadBy.ext2DirentryStep index inode (base + 1024) s) mem := by
  rw [direntryStep_within, UInt32.lt_iff_toNat_lt (b := s.offset), UInt32.le_iff_toNat_le]
  obtain ⟨hsize, hrest⟩ := h
  refine fun _ => ⟨hsize, fun hin => ?_⟩
  obtain ⟨hsuper, hinside, hbehind⟩ := hrest (by omega)
  refine ⟨hsuper, fun hlt => ?_, fun hle => hbehind hle _⟩
  have hlen := hinside (by omega)
  rw [ofNat_toNat] at hlen
  rw [hblock (by omega)]
  exact hlen

/-- Behind the block every block of the directory is looked up in the end. -/
theorem direntry_stuck_within {s : ReadBy.DirCursor} (hi : s.i < index)
    (hin : ¬ Inode.size mem inode < s.offset) (hle : ext2BlocksizeGet mem (base + 1024) ≤ s.offset)
    (hall : ∀ m, Within (InImage mem base) (ReadBy.ext2DirentryStep index inode (base + 1024)
      ((direntryNext mem inode (base + 1024))^[m] s)) mem) (b : UInt32) :
    InodeblockIn mem base b inode := by
  have h := hall (b - (s.blockNumber + 1)).toNat
  rw [direntryStep_within, (direntry_stuck inode hle _).1, (direntry_stuck inode hle _).2,
    direntry_stuck_block hle, ofNat_toNat] at h
  have hb := ((h hi).2 hin).2.2 hle
  rwa [show s.blockNumber + (b - (s.blockNumber + 1)) + 1 = b by grind] at hb

/-- The turns that the walk comes to read inside. -/
def TurnsIn (mem : Mem) (base index inode block : UInt32) : Prop :=
  ∀ k, (∀ j < k, ¬ (¬ ((direntryNext mem inode (base + 1024))^[j] (cursorAt mem block 0)).i < index ∨
      Inode.size mem inode <
        ((direntryNext mem inode (base + 1024))^[j] (cursorAt mem block 0)).offset)) →
    Within (InImage mem base) (ReadBy.ext2DirentryStep index inode (base + 1024)
      ((direntryNext mem inode (base + 1024))^[k] (cursorAt mem block 0))) mem

theorem TurnsIn.entryIn {block : UInt32} (hall : TurnsIn mem base index inode block) {k : ℕ}
    (hk : k < index.toNat)
    (hbefore : ∀ j < k, entryOffset mem block j < (ext2BlocksizeGet mem (base + 1024)).toNat ∧
      entryOffset mem block j ≤ (Inode.size mem inode).toNat) :
    EntryIn mem base inode block (entryOffset mem block k) := by
  have hindex := index.toNat_lt
  have hblock := fun j hj => (hbefore j hj).1
  have hfirst : ∀ j < k, ¬ (¬ ((direntryNext mem inode (base + 1024))^[j]
        (cursorAt mem block 0)).i < index ∨ Inode.size mem inode <
      ((direntryNext mem inode (base + 1024))^[j] (cursorAt mem block 0)).offset) := by
    intro j hj
    rw [direntry_walk fun i hi => hblock i (by omega)]
    exact (cursorAt_goes_iff (by omega) fun i hi => hblock i (by omega)).2 ⟨by omega, (hbefore j hj).2⟩
  have hturn := hall k hfirst
  have hi : (cursorAt mem block k).i < index := by
    rw [UInt32.lt_iff_toNat_lt, cursorAt, toNat_ofNat_of_lt (by omega)]
    exact hk
  rw [direntry_walk hblock, direntryStep_within, UInt32.le_iff_toNat_le,
    UInt32.lt_iff_toNat_lt (b := (cursorAt mem block k).offset), cursorAt_toNat hblock] at hturn
  obtain ⟨hsize, hrest⟩ := hturn hi
  refine ⟨hsize, fun hin => ?_⟩
  obtain ⟨hsuper, hinside, _⟩ := hrest (by omega)
  refine ⟨hsuper, fun hlt => hinside (by omega), fun hbehind => ?_⟩
  -- from here on the cursor stays and comes by every block
  have hle : ext2BlocksizeGet mem (base + 1024) ≤ (cursorAt mem block k).offset := by
    rw [UInt32.le_iff_toNat_le, cursorAt_toNat hblock]
    exact hbehind
  have hkgo := (cursorAt_goes_iff (k := k) (by omega) hblock).2 ⟨hk, hin⟩
  refine direntry_stuck_within hi (not_or.1 hkgo).2 hle fun m => ?_
  have hstuck : ∀ m, (direntryNext mem inode (base + 1024))^[m + k] (cursorAt mem block 0) =
      (direntryNext mem inode (base + 1024))^[m] (cursorAt mem block k) := fun m => by
    rw [Function.iterate_add_apply, direntry_walk hblock]
  rw [← hstuck]
  refine hall (m + k) fun j hj => ?_
  by_cases hjk : j < k
  · exact hfirst j hjk
  · rw [show j = (j - k) + k by omega, hstuck, (direntry_stuck inode hle _).1,
      (direntry_stuck inode hle _).2]
    exact hkgo

/-- As long as the entries are in the block, a walk that goes on is at one of the first `index` of them,
and not behind the end. -/
theorem direntry_passed {block : UInt32} {k : ℕ}
    (hgo : ∀ j < k, ¬ (¬ ((direntryNext mem inode (base + 1024))^[j] (cursorAt mem block 0)).i < index ∨
      Inode.size mem inode <
        ((direntryNext mem inode (base + 1024))^[j] (cursorAt mem block 0)).offset))
    {i : ℕ} (hi : i < k)
    (hblock : ∀ j < i, entryOffset mem block j < (ext2BlocksizeGet mem (base + 1024)).toNat) :
    i < index.toNat ∧ entryOffset mem block i ≤ (Inode.size mem inode).toNat := by
  have hindex := index.toNat_lt
  by_cases hin : i < index.toNat
  · have h := hgo i hi
    rw [direntry_walk hblock] at h
    exact (cursorAt_goes_iff (by omega) hblock).1 h
  · have h := hgo index.toNat (by omega)
    rw [direntry_walk fun x hx => hblock x (by omega)] at h
    have hlt := ((cursorAt_goes_iff hindex fun x hx => hblock x (by omega)).1 h).1
    exact absurd hlt (lt_irrefl _)

theorem turnsIn_of_entryIn {block : UInt32}
    (hall : ∀ k < index.toNat,
      (∀ j < k, entryOffset mem block j < (ext2BlocksizeGet mem (base + 1024)).toNat ∧
        entryOffset mem block j ≤ (Inode.size mem inode).toNat) →
      EntryIn mem base inode block (entryOffset mem block k)) :
    TurnsIn mem base index inode block := by
  intro k hgo
  by_cases hex : ∃ j, j < k ∧ (ext2BlocksizeGet mem (base + 1024)).toNat ≤ entryOffset mem block j
  · -- the first entry that starts behind the block
    classical
    obtain ⟨hjk, hbehind⟩ := Nat.find_spec hex
    generalize hfind : Nat.find hex = j at hjk hbehind
    have hblock : ∀ i < j, entryOffset mem block i < (ext2BlocksizeGet mem (base + 1024)).toNat := by
      intro i hi
      have hmin := Nat.find_min hex (hfind ▸ hi)
      omega
    have hpassed : ∀ i ≤ j, i < index.toNat ∧ entryOffset mem block i ≤ (Inode.size mem inode).toNat :=
      fun i hi => direntry_passed hgo (by omega) fun x hx => hblock x (by omega)
    have hentry := hall j (hpassed j le_rfl).1 fun i hi => ⟨hblock i hi, (hpassed i hi.le).2⟩
    have hle : ext2BlocksizeGet mem (base + 1024) ≤ (cursorAt mem block j).offset := by
      rw [UInt32.le_iff_toNat_le, cursorAt_toNat hblock]
      exact hbehind
    rw [show k = (k - j) + j by omega, Function.iterate_add_apply, direntry_walk hblock]
    refine @EntryIn.step mem base index inode block _ ?_ fun hlt => ?_
    · rw [(direntry_stuck inode hle (k - j)).1, cursorAt_toNat hblock]
      exact hentry
    · rw [(direntry_stuck inode hle (k - j)).1, cursorAt_toNat hblock] at hlt
      omega
  · have hblock : ∀ j < k, entryOffset mem block j < (ext2BlocksizeGet mem (base + 1024)).toNat := by
      intro j hj
      by_contra hge
      exact hex ⟨j, hj, by omega⟩
    have hpassed : ∀ i < k, i < index.toNat ∧ entryOffset mem block i ≤ (Inode.size mem inode).toNat :=
      fun i hi => direntry_passed hgo hi fun x hx => hblock x (by omega)
    rw [direntry_walk hblock]
    by_cases hk : k < index.toNat
    · refine @EntryIn.step mem base index inode block _ ?_ fun _ => rfl
      rw [cursorAt_toNat hblock]
      exact hall k hk fun j hj => ⟨hblock j hj, (hpassed j hj).2⟩
    · have hki : k = index.toNat := by
        by_contra hne
        exact absurd (hpassed index.toNat (by omega)).1 (lt_irrefl _)
      rw [direntryStep_within]
      intro hi
      rw [hki, cursorAt, ofNat_toNat] at hi
      exact absurd hi (UInt32.lt_irrefl index)

/-- **`ext2_direntry_get` reads inside** exactly under `DirentryIn`. -/
theorem direntry_within :
    (∀ n, Within (InImage mem base) (ReadBy.ext2DirentryGet n index inode (base + 1024)) mem) ↔
      DirentryIn mem base index inode := by
  simp only [ReadBy.ext2DirentryGet, DirentryIn, inodeblockGet_within_bind, forall_and_left,
    (direntryStep_turn index inode (base + 1024)).within_iff]
  refine and_congr_right fun _ => ?_
  exact ⟨fun hall k hk hbefore => TurnsIn.entryIn hall hk hbefore, turnsIn_of_entryIn⟩

end Direntry

/-! ### Finding a name -/

/-- The bytes at `p` up to the first that is 0 are inside. -/
def StringIn (mem : Mem) (base p : UInt32) : Prop :=
  ∀ k, (∀ j < k, mem (p + UInt32.ofNat j) ≠ 0) → InImage mem base (p + UInt32.ofNat k)

/-- The bytes at `p` are inside up to the first that ends a comparison with the string at `name`. -/
def CompareIn (mem : Mem) (base p name : UInt32) : Prop :=
  ∀ k, (∀ j < k, mem (p + UInt32.ofNat j) ≠ 0 ∧ mem (name + UInt32.ofNat j) ≠ 0 ∧
      mem (p + UInt32.ofNat j) = mem (name + UInt32.ofNat j)) →
    InImage mem base (p + UInt32.ofNat k)

/-- What is copied from an inode into a node is inside. -/
def InodeFieldsIn (mem : Mem) (base inode : UInt32) : Prop :=
  Covered (InImage mem base) inode 2 ∧ Covered (InImage mem base) (inode + 2) 2 ∧
    Covered (InImage mem base) (inode + 24) 2 ∧ Covered (InImage mem base) (inode + 4) 4

/-- What is read of an entry that was found is inside: its inode number, the way to that inode, its
name, and if that is not too long the inode. -/
def FoundIn (mem : Mem) (base ent : UInt32) : Prop :=
  Covered (InImage mem base) ent 4 ∧ InodeGetIn mem base (read32 mem ent) ∧
    (NoZeroDivisor mem (base + 1024) (read32 mem ent) → StringIn mem base (ent + 8) ∧
      ∀ xs, StringAt mem (ent + 8) xs → xs.length ≤ 128 →
        InodeFieldsIn mem base (inodeSlot mem (base + 1024) (read32 mem ent)))

section Finddir

variable {mem : Mem} {base name : UInt32} {xs : List UInt8}

theorem strlen_within {p : UInt32} (h : StringAt mem p xs) :
    Within (InImage mem base) (ReadBy.strlen p) mem ↔ StringIn mem base p := by
  have hend : mem (p + (fun r : UInt32 => r + 1)^[xs.length] 0) = 0 := by
    rw [iterate_succ_ofNat]
    exact h.terminator
  have hstep : ∀ r, Within (InImage mem base) (ReadBy.strlenStep p r) mem ↔
      InImage mem base (p + r) := by
    intro r
    unfold ReadBy.strlenStep
    rw [within_load8_bind, covered_one, within_ite]
    exact and_iff_left ⟨fun _ => within_pure _, fun _ => within_pure _⟩
  rw [ReadBy.strlen, (strlen_turn p).within_of_end hend h.length_lt, StringIn]
  simp only [iterate_succ_ofNat, hstep, ne_eq]

theorem strcmp_within {b : UInt32} (h : StringAt mem b xs) (a : UInt32) :
    Within (InImage mem base) (ReadBy.strcmp a b) mem ↔ CompareIn mem base a b := by
  have hend : mem (a + (fun r : UInt32 => r + 1)^[xs.length] 0) = 0 ∨
      mem (b + (fun r : UInt32 => r + 1)^[xs.length] 0) = 0 ∨
      mem (a + (fun r : UInt32 => r + 1)^[xs.length] 0) ≠
        mem (b + (fun r : UInt32 => r + 1)^[xs.length] 0) := by
    rw [iterate_succ_ofNat]
    exact Or.inr (Or.inl h.terminator)
  have hstep : ∀ i, Within (InImage mem base) (ReadBy.strcmpStep a b i) mem ↔
      InImage mem base (a + i) := by
    intro i
    unfold ReadBy.strcmpStep
    rw [within_load8_bind, covered_one]
    refine and_iff_left ?_
    simp only [within_ite, within_bind, within_peek, within_pure, implies_true, and_self]
  rw [ReadBy.strcmp, (strcmp_turn a b).within_of_end hend h.length_lt, CompareIn]
  simp only [iterate_succ_ofNat, hstep, not_or, not_not, ne_eq]

theorem entryMatches_within (h : StringAt mem name xs) (ent : UInt32) :
    Within (InImage mem base) (ReadBy.entryMatches ent name) mem ↔
      Covered (InImage mem base) (ent + 6) 2 ∧
        (UInt32.ofNat xs.length = (nameLen mem ent).toUInt32 →
          CompareIn mem base (ent + 8) name) := by
  unfold ReadBy.entryMatches
  rw [within_bind_of (a := UInt32.ofNat xs.length) (by rw [peek_val, strlen_eq h]),
    and_iff_right (within_peek _), within_load16_bind, within_ite, within_map, strcmp_within h]
  exact and_congr_right fun _ => and_iff_left fun _ => within_pure false

theorem found_within (hname : StringAt mem name xs) (code : ReadBy.InitrdCode) (file : UInt32)
    (fresh : Buffer) (ent : UInt32) :
    Within (InImage mem base) (ReadBy.initrdFound code file fresh ent (base + 1024)) mem ↔
      FoundIn mem base ent := by
  obtain ⟨ys, hys⟩ := exists_stringAt hname.terminator (ent + 8)
  have hcopied : StringIn mem base (ent + 8) →
      Covered (InImage mem base) (ent + 8) (UInt32.ofNat ys.length).toNat := by
    intro h i hi
    rw [toNat_ofNat_of_lt hys.length_lt] at hi
    refine h i fun j hj => ?_
    rw [(hys.byte (by omega)).1]
    exact (hys.byte (by omega)).2
  have hcopy : (ReadBy.strcpy fresh (ent + 8) mem).1 =
      some (memcpyFrom mem (ent + 8) (UInt32.ofNat ys.length) fresh) := by
    simp only [ReadBy.strcpy, bind_val, strlen_val hys, memcpyFrom_val, Option.bind_some]
  have hcopies : Within (InImage mem base) (ReadBy.strcpy fresh (ent + 8)) mem ↔
      StringIn mem base (ent + 8) := by
    unfold ReadBy.strcpy
    rw [within_bind_of (strlen_val hys), strlen_within hys, within_memcpyFrom]
    exact and_iff_left_of_imp hcopied
  have hlong : ¬ 128 < UInt32.ofNat ys.length ↔ ys.length ≤ 128 := by
    rw [UInt32.lt_iff_toNat_lt, toNat_ofNat_of_lt hys.length_lt, not_lt]
    exact Iff.rfl
  have huniq : (∀ xs, StringAt mem (ent + 8) xs → xs.length ≤ 128 →
      InodeFieldsIn mem base (inodeSlot mem (base + 1024) (read32 mem ent))) ↔
      (ys.length ≤ 128 → InodeFieldsIn mem base (inodeSlot mem (base + 1024) (read32 mem ent))) :=
    ⟨fun h => h ys hys, fun h xs hxs => hxs.unique hys ▸ h⟩
  unfold ReadBy.initrdFound FoundIn
  rw [within_load32_bind, inodeGet_within_bind, huniq]
  refine and_congr_right fun hent => and_congr_right fun _ => imp_congr_right fun _ => ?_
  generalize inodeSlot mem (base + 1024) (read32 mem ent) = inode
  rw [within_bind_of (strlen_val hys), strlen_within hys, within_ite, hlong]
  refine and_congr_right fun hstring => ?_
  rw [and_iff_right fun _ => within_pure _]
  refine imp_congr_right fun _ => ?_
  simp only [within_bind_of hcopy, hcopies, within_load16_bind, within_load32_bind, hstring, hent,
    within_bind_of (inodeTypetofile_val inode), within_pure, true_and, and_true, InodeFieldsIn]
  unfold ReadBy.ext2InodeTypetofile
  rw [within_map, within_load16]
  constructor
  · rintro ⟨htype, huid, hgid, _, hsize⟩
    exact ⟨htype, huid, hgid, hsize⟩
  · rintro ⟨htype, huid, hgid, hsize⟩
    exact ⟨htype, huid, hgid, htype, hsize⟩

/-- What is read of the record at `index` of a directory's block is inside: the directory's size, and
if the record lies before the end its name's length; if that is the length of the name looked for,
what is compared and what is found, and otherwise the record's length. -/
def RecordIn (mem : Mem) (base inode block name length index : UInt32) : Prop :=
  Covered (InImage mem base) (inode + 4) 4 ∧
  (index < Inode.size mem inode →
    Covered (InImage mem base) (block + index + 6) 2 ∧
    (length = (nameLen mem (block + index)).toUInt32 →
      CompareIn mem base (block + index + 8) name ∧ FoundIn mem base (block + index)) ∧
    (length ≠ (nameLen mem (block + index)).toUInt32 →
      Covered (InImage mem base) (block + index + 4) 2))

/-- The way to the node's inode and to its first block is inside, and if it is a directory with a
first block, each record that the walk comes to. -/
def FinddirIn (mem : Mem) (base node name length : UInt32) : Prop :=
  let number := ReadBy.nodeInode mem node
  let inode := inodeSlot mem (base + 1024) number
  let block := ext2InodeblockGet mem 0 inode (base + 1024)
  InodeGetIn mem base number ∧ (NoZeroDivisor mem (base + 1024) number →
    InodeblockIn mem base 0 inode ∧ (node ≠ 0 → Covered (InImage mem base) inode 2 ∧
      (read16 mem inode &&& 0x4000 ≠ 0 → block ≠ 0 →
        ∀ k, (∀ j < k, ¬ WalkStops mem block (Inode.size mem inode) length (recordAt mem block j)) →
          RecordIn mem base inode block name length (recordAt mem block k))))

theorem finddirStep_within (hname : StringAt mem name xs) (code : ReadBy.InitrdCode)
    (file : UInt32) (fresh : Buffer) (block inode index : UInt32) :
    Within (InImage mem base)
        (ReadBy.initrdFinddirStep code file fresh block inode name (base + 1024) index) mem ↔
      RecordIn mem base inode block name (UInt32.ofNat xs.length) index := by
  unfold ReadBy.initrdFinddirStep RecordIn
  rw [within_load32_bind, within_ite]
  refine and_congr_right fun _ => ?_
  rw [and_iff_left fun _ => within_pure _]
  refine imp_congr_right fun _ => ?_
  rw [within_bind_of (entryMatches_val hname _), entryMatches_within hname, within_ite, within_map,
    found_within hname, within_load16_bind, and_iff_left (within_pure _), decide_eq_true_eq,
    and_assoc]
  refine and_congr_right fun _ => ?_
  constructor
  · rintro ⟨hcompare, hfound, hlen⟩
    exact ⟨fun h => ⟨hcompare h, hfound h⟩, hlen⟩
  · rintro ⟨hmatch, hlen⟩
    exact ⟨fun h => (hmatch h).1, fun h => (hmatch h).2, hlen⟩

/-- **`initrd_finddir` reads inside** exactly under `FinddirIn`. -/
theorem finddir_within (hname : StringAt mem name xs) (code : ReadBy.InitrdCode) (file : UInt32)
    (fresh : Buffer) (node : UInt32) :
    (∀ n, Within (InImage mem base)
        (ReadBy.initrdFinddir n code file fresh node name (base + 1024)) mem) ↔
      FinddirIn mem base node name (UInt32.ofNat xs.length) := by
  unfold FinddirIn
  have hcall : ∀ n, Within (InImage mem base)
      (ReadBy.initrdFinddir n code file fresh node name (base + 1024)) mem ↔
      InodeGetIn mem base (ReadBy.nodeInode mem node) ∧
      (NoZeroDivisor mem (base + 1024) (ReadBy.nodeInode mem node) →
        InodeblockIn mem base 0 (inodeSlot mem (base + 1024) (ReadBy.nodeInode mem node)) ∧
        (node ≠ 0 →
          Covered (InImage mem base)
            (inodeSlot mem (base + 1024) (ReadBy.nodeInode mem node)) 2 ∧
          (¬ (read16 mem (inodeSlot mem (base + 1024) (ReadBy.nodeInode mem node)) &&& 0x4000 = 0 ∨
              ext2InodeblockGet mem 0
                (inodeSlot mem (base + 1024) (ReadBy.nodeInode mem node)) (base + 1024) = 0) →
            Within (InImage mem base) (Prog.loop (ReadBy.initrdFinddirStep code file fresh
              (ext2InodeblockGet mem 0
                (inodeSlot mem (base + 1024) (ReadBy.nodeInode mem node)) (base + 1024))
              (inodeSlot mem (base + 1024) (ReadBy.nodeInode mem node)) name (base + 1024)) n 0)
              mem))) := by
    intro n
    unfold ReadBy.initrdFinddir
    rw [within_bind_of (a := ReadBy.nodeInode mem node) rfl, and_iff_right (within_peek _),
      inodeGet_within_bind]
    simp only [inodeblockGet_within_bind, within_ite, within_load16_bind, within_pure, implies_true,
      true_and, ne_eq]
  simp only [hcall]
  generalize ReadBy.nodeInode mem node = number
  generalize inodeSlot mem (base + 1024) number = inode
  generalize ext2InodeblockGet mem 0 inode (base + 1024) = block
  have hturn : Turn
      (ReadBy.initrdFinddirStep code file fresh block inode name (base + 1024)) mem _ _ _ :=
    finddirStep_turn hname block inode
  have hloop := hturn.within_iff (P := InImage mem base) 0
  simp only [finddirStep_within hname] at hloop
  constructor
  · intro hall
    refine ⟨(hall 0).1, fun hdiv => ⟨((hall 0).2 hdiv).1, fun hnode =>
      ⟨(((hall 0).2 hdiv).2 hnode).1, fun htype hblock => ?_⟩⟩⟩
    exact hloop.1 fun n => (((hall n).2 hdiv).2 hnode).2 (not_or.2 ⟨htype, hblock⟩)
  · rintro ⟨hget, hrest⟩ n
    refine ⟨hget, fun hdiv => ⟨(hrest hdiv).1, fun hnode => ⟨((hrest hdiv).2 hnode).1, fun h => ?_⟩⟩⟩
    obtain ⟨htype, hblock⟩ := not_or.1 h
    exact hloop.2 (((hrest hdiv).2 hnode).2 htype hblock) n

end Finddir

/-! ### The calls of the reader -/

/-- All that a call reads of the image is inside; `length` is that of the name. -/
def Ext2Call.Inside (mem : Mem) (base length : UInt32) : Ext2Call → Prop
  | .inodeGet inode => InodeGetIn mem base inode
  | .inodeblockGet block inode => InodeblockIn mem base block inode
  | .read offset buffer size inode => ReadIn mem base offset buffer size inode
  | .direntryGet index inode => DirentryIn mem base index inode
  | .finddir _ _ _ node name => FinddirIn mem base node name length

/-- **Reads of the reader.**  On every image that is accepted, and whatever it contains, a call reads
inside the image exactly when the pointers made from the block numbers, the inode tables and the
record lengths it comes to all are. -/
theorem ext2_inside_iff {image mem : Mem} {base superblock : UInt32}
    (h : ext2SuperblockGet image base = some (superblock, mem)) (call : Ext2Call) (xs : List UInt8)
    (hname : call.NameIs mem xs) :
    (∀ n, Within (InImage mem base) (call.prog superblock n) mem) ↔
      call.Inside mem base (UInt32.ofNat xs.length) := by
  have hsuper : superblock = base + 1024 := by
    unfold ext2SuperblockGet at h
    simp only at h
    split at h
    · exact ((Prod.mk.inj (Option.some.inj h)).1).symm
    · cases h
  subst hsuper
  cases call with
  | inodeGet inode =>
    simp only [Ext2Call.prog, within_map, Ext2Call.Inside, inodeGet_within, forall_const]
  | inodeblockGet block inode =>
    simp only [Ext2Call.prog, within_map, Ext2Call.Inside, inodeblockGet_within, forall_const]
  | read offset buffer size inode =>
    simp only [Ext2Call.prog, within_map, Ext2Call.Inside, read_within]
  | direntryGet index inode =>
    simp only [Ext2Call.prog, within_map, Ext2Call.Inside, direntry_within]
  | finddir code file fresh node name =>
    simp only [Ext2Call.prog, within_map, Ext2Call.Inside]
    exact finddir_within hname code file fresh node

/-- The example image is accepted, and on it looking for the root inode reads inside. -/
theorem ext2_inside_root :
    ext2SuperblockGet image256 0x100000 = some (0x100000 + 1024, mounted image256 0x100000) ∧
      ∀ n, Within (InImage (mounted image256 0x100000) 0x100000)
        ((Ext2Call.inodeGet 2).prog (0x100000 + 1024) n) (mounted image256 0x100000) := by
  refine ⟨ext2SuperblockGet_eq (by decide), ?_⟩
  refine (ext2_inside_iff (ext2SuperblockGet_eq (by decide)) (.inodeGet 2) [] trivial).2 ?_
  refine ⟨by unfold SuperblockIn; decide, fun _ => ?_⟩
  unfold Covered InImage
  decide

/-- The example image with inodes of 128 bytes, and block 1000 the first of inode 2. -/
def imageBlock1000 : Mem := write32 (write16 image256 0x100458 128) 0x1014A8 1000

/-- **An image of 64 blocks that is accepted**: reading the first byte of its inode 2 reads behind
its end. -/
theorem ext2_reads_outside :
    ext2SuperblockGet imageBlock1000 0x100000 =
        some (0x100000 + 1024, mounted imageBlock1000 0x100000) ∧
      ext2InodeGet (mounted imageBlock1000 0x100000) 2 (0x100000 + 1024) = some 0x101480 ∧
      imageLength (mounted imageBlock1000 0x100000) 0x100000 = 64 * 1024 ∧
      ¬ ∀ n, Within (InImage (mounted imageBlock1000 0x100000) 0x100000)
        ((Ext2Call.read 0 (some fun _ => 0) 1 0x101480).prog (0x100000 + 1024) n)
        (mounted imageBlock1000 0x100000) := by
  refine ⟨ext2SuperblockGet_eq (by decide), by decide, by decide, fun hall => ?_⟩
  simp only [Ext2Call.prog, within_map, read_within] at hall
  obtain ⟨_, _, hbytes⟩ := hall (Option.some_ne_none _) (by decide) (by decide)
  have hfirst := hbytes 0 (by decide)
  unfold InImage at hfirst
  revert hfirst
  decide

end CometOS
