import CometOS.Ext2Inode

/-!
# Reading a file

`ext2_read` against the bytes of the file: the logical blocks one after the other, a block without a
pointer being zeros.  A request within one block is copied from the right place; a longer one copies
every block to the start of the buffer, so that its last position is never written.
-/

namespace CometOS

open ByteMemory Loop Word32

/-! ### The file -/

/-- The pointer to logical block `j`, which is direct or in the indirect block; 0 for a hole. -/
def fileBlock (mem : Mem) (base inode j : UInt32) : UInt32 :=
  if j < 12 then Inode.block mem inode j
  else if Inode.block mem inode 12 = 0 then 0
  else read32 mem (base + ext2BlocksizeGet mem (base + 1024) * Inode.block mem inode 12 +
    4 * (j - 12))

/-- Byte `k` of the file. -/
def fileByte (mem : Mem) (base inode : UInt32) (k : ℕ) : UInt8 :=
  let pointer := fileBlock mem base inode
    (UInt32.ofNat (k / (ext2BlocksizeGet mem (base + 1024)).toNat))
  if pointer = 0 then 0
  else mem (base + ext2BlocksizeGet mem (base + 1024) * pointer +
    UInt32.ofNat (k % (ext2BlocksizeGet mem (base + 1024)).toNat))

/-- How many bytes a request is owed. -/
def readLength (mem : Mem) (inode offset size : UInt32) : ℕ :=
  min size.toNat ((Inode.size mem inode).toNat - offset.toNat)

/-- A request is answered as the file has it, whatever the buffer held. -/
def ReadOk (mem : Mem) (base inode offset size : UInt32) : Prop :=
  ∀ buffer : Buffer, ∃ buffer' : Buffer,
    ext2Read mem offset (some buffer) size inode (base + 1024) =
        some (UInt32.ofNat (readLength mem inode offset size), some buffer') ∧
      (∀ k < readLength mem inode offset size,
        buffer' k = fileByte mem base inode (offset.toNat + k)) ∧
      ∀ k, readLength mem inode offset size ≤ k → buffer' k = buffer k

/-- The file ends within its direct blocks and those of the indirect block. -/
def FitsIndirect (mem : Mem) (base inode : UInt32) : Prop :=
  (Inode.size mem inode).toNat ≤ (ext2BlocksizeGet mem (base + 1024)).toNat *
    (12 + (ext2BlocksizeGet mem (base + 1024)).toNat / 4)

/-! ### Copying -/

theorem memcpyFrom_apply (mem : Mem) (src size : UInt32) (buffer : Buffer) (k : ℕ) :
    memcpyFrom mem src size buffer k =
      if k < size.toNat then mem (src + UInt32.ofNat k) else buffer k := by
  have hinv := @forUp_inv Buffer
    (fun i b => ∀ k, b k = if k < i then mem (src + UInt32.ofNat k) else buffer k)
    (fun i b => Function.update b i (mem (src + UInt32.ofNat i))) size.toNat 0 buffer
    (fun k => rfl)
    (fun i b _ _ hb k => by
      rcases Nat.lt_trichotomy k i with hlt | rfl | hgt
      · rw [Function.update_of_ne (by omega), hb, if_pos hlt, if_pos (by omega)]
      · rw [Function.update_self, if_pos (by omega)]
      · rw [Function.update_of_ne (by omega), hb, if_neg (by omega), if_neg (by omega)])
  rw [Nat.zero_add] at hinv
  exact hinv k

/-- Positions from the end of the copy on keep what they had. -/
theorem memcpyFrom_of_le (mem : Mem) (src size : UInt32) (buffer : Buffer) {k : ℕ}
    (h : size.toNat ≤ k) : memcpyFrom mem src size buffer k = buffer k := by
  rw [memcpyFrom_apply, if_neg (by omega)]

/-! ### The blocks -/

section Image

variable {mem : Mem} {base inode : UInt32}

theorem Ext2Image.blocksize_pos (wf : Ext2Image mem base) :
    0 < (ext2BlocksizeGet mem (base + 1024)).toNat := by
  rcases wf.blocksize_toNat with ⟨h, _⟩ | ⟨h, _⟩ | ⟨h, _⟩ <;> omega

theorem Ext2Image.superblock_ne (wf : Ext2Image mem base) : base + 1024 ≠ 0 := by
  intro h
  have hplace := tablePlace_le wf wf.nonempty
  have hadd : (base + 1024).toNat = base.toNat + 1024 :=
    toNat_add_of_lt (by rw [show (1024 : UInt32).toNat = 1024 from rfl]; omega)
  rw [h] at hadd
  have hzero : (0 : UInt32).toNat = 0 := rfl
  omega

theorem ext2BlockGet_of_ne {b : UInt32} (h : b ≠ 0) :
    ext2BlockGet mem b (base + 1024) = base + ext2BlocksizeGet mem (base + 1024) * b := by
  have hle : ¬ b ≤ 0 := by
    rw [UInt32.le_iff_toNat_le, show (0 : UInt32).toNat = 0 from rfl]
    have := toNat_pos h
    omega
  rw [ext2BlockGet, if_neg hle, show base + 1024 - 1024 = base by grind]

/-- Where there is a pointer the reader follows it. -/
theorem ext2InodeblockGet_of_ne {j : UInt32}
    (hj : j.toNat < 12 + (ext2BlocksizeGet mem (base + 1024)).toNat / 4)
    (h : fileBlock mem base inode j ≠ 0) :
    ext2InodeblockGet mem j inode (base + 1024) =
      base + ext2BlocksizeGet mem (base + 1024) * fileBlock mem base inode j := by
  rw [fileBlock] at h ⊢
  rw [ext2InodeblockGet]
  by_cases hdirect : j < 12
  · rw [if_pos hdirect] at h ⊢
    rw [if_pos hdirect, if_neg h, ext2BlockGet_of_ne h]
  · rw [if_neg hdirect] at h ⊢
    rw [if_neg hdirect, if_pos ((lt_reach_iff mem base j).2 hj)]
    by_cases hind : Inode.block mem inode 12 = 0
    · rw [if_pos hind] at h
      exact absurd rfl h
    · rw [if_neg hind] at h ⊢
      simp only [ext2BlockGet_of_ne hind]
      rw [if_neg h, ext2BlockGet_of_ne h]

/-! ### The loop -/

/-- What `ext2_read` starts the loop with. -/
def readStart (mem : Mem) (base offset size : UInt32) (buffer : Buffer) : ReadState where
  index := size
  block := offset / ext2BlocksizeGet mem (base + 1024)
  blockOffset := offset % ext2BlocksizeGet mem (base + 1024)
  buffer := buffer

/-- The copy after the loop. -/
def readEnd (mem : Mem) (base inode : UInt32) (s : ReadState) : Buffer :=
  memcpyFrom mem (ext2InodeblockGet mem s.block inode (base + 1024) + s.blockOffset) s.index
    s.buffer

def readLoop (mem : Mem) (base inode : UInt32) (n : ℕ) (s : ReadState) : Option ReadState :=
  whileLoop (fun s => s.left mem (base + 1024) < s.index)
    (fun s => some (ext2ReadTurn mem inode (base + 1024) s)) n s

/-- With an inode and a superblock, `ext2_read` is its loop and the copy after it. -/
theorem ext2Read_eq (wf : Ext2Image mem base) (hinode : inode ≠ 0) (offset size : UInt32)
    (buffer : Buffer) :
    ext2Read mem offset (some buffer) size inode (base + 1024) =
      (readLoop mem base inode (2 ^ 32) (readStart mem base offset size buffer)).map fun s =>
        (size, some (readEnd mem base inode s)) := by
  have hbs : ¬ (offset ≠ 0 ∧ ext2BlocksizeGet mem (base + 1024) = 0) := by
    rintro ⟨_, h⟩
    have hpos := wf.blocksize_pos
    rw [h] at hpos
    exact absurd hpos (by decide)
  have hblock : (if offset ≠ 0 then offset / ext2BlocksizeGet mem (base + 1024) else 0) =
      offset / ext2BlocksizeGet mem (base + 1024) := by
    split
    · rfl
    · rename_i h
      rw [not_not.1 h, UInt32.zero_div]
  have hoff : (if offset ≠ 0 then offset % ext2BlocksizeGet mem (base + 1024) else 0) =
      offset % ext2BlocksizeGet mem (base + 1024) := by
    split
    · rfl
    · rename_i h
      rw [not_not.1 h, UInt32.zero_mod]
  simp only [ext2Read, hblock, hoff]
  rw [if_neg (fun h => h.elim hinode wf.superblock_ne), if_neg hbs]
  rfl

/-- How much of the block is left, once the place in it is inside it. -/
theorem toNat_left {s : ReadState}
    (h : s.blockOffset.toNat < (ext2BlocksizeGet mem (base + 1024)).toNat) :
    (s.left mem (base + 1024)).toNat =
      (ext2BlocksizeGet mem (base + 1024)).toNat - s.blockOffset.toNat :=
  toNat_sub_of_le (by omega)

/-- What a turn keeps: the place stays inside a block, the count shrinks, and the bytes copied are
fewer than the count, so that the buffer's position `last` is left alone if the count was at most one
more. -/
theorem ext2ReadTurn_spec (wf : Ext2Image mem base) {s : ReadState}
    (hoff : s.blockOffset.toNat < (ext2BlocksizeGet mem (base + 1024)).toNat)
    (hcond : s.left mem (base + 1024) < s.index) :
    (ext2ReadTurn mem inode (base + 1024) s).blockOffset.toNat <
        (ext2BlocksizeGet mem (base + 1024)).toNat ∧
      (ext2ReadTurn mem inode (base + 1024) s).index.toNat < s.index.toNat ∧
      ∀ last, s.index.toNat ≤ last + 1 →
        (ext2ReadTurn mem inode (base + 1024) s).buffer last = s.buffer last := by
  have hleft := toNat_left hoff
  rw [UInt32.lt_iff_toNat_lt] at hcond
  refine ⟨wf.blocksize_pos, ?_, ?_⟩
  · show (s.index - s.left mem (base + 1024)).toNat < _
    rw [toNat_sub_of_le (by omega)]
    omega
  · intro last hlast
    exact memcpyFrom_of_le _ _ _ _ (by omega)

/-- **Termination.**  `ext2_read` always returns, and returns the size it was asked for. -/
theorem ext2Read_returns (wf : Ext2Image mem base) (hinode : inode ≠ 0) (offset size : UInt32)
    (buffer : Buffer) :
    ∃ buffer', ext2Read mem offset (some buffer) size inode (base + 1024) =
      some (size, some buffer') := by
  obtain ⟨s, hs, _⟩ := whileLoop_spec
    (fun s : ReadState => s.blockOffset.toNat < (ext2BlocksizeGet mem (base + 1024)).toNat)
    (fun s => s.index.toNat)
    (fun s hoff hcond => by
      have hturn := @ext2ReadTurn_spec mem base inode wf _ hoff (of_decide_eq_true hcond)
      exact ⟨_, rfl, hturn.1, hturn.2.1⟩)
    (2 ^ 32) (readStart mem base offset size buffer)
    (by
      show (offset % _).toNat < _
      rw [UInt32.toNat_mod]
      exact Nat.mod_lt _ wf.blocksize_pos)
    size.toNat_lt
  refine ⟨readEnd mem base inode s, ?_⟩
  rw [ext2Read_eq wf hinode, readLoop, hs]
  rfl

/-- A request within one block is one copy. -/
theorem ext2Read_within (wf : Ext2Image mem base) (hinode : inode ≠ 0) {offset size : UInt32}
    (h : offset.toNat % (ext2BlocksizeGet mem (base + 1024)).toNat + size.toNat ≤
      (ext2BlocksizeGet mem (base + 1024)).toNat) (buffer : Buffer) :
    ext2Read mem offset (some buffer) size inode (base + 1024) =
      some (size, some (readEnd mem base inode (readStart mem base offset size buffer))) := by
  have hoff : (readStart mem base offset size buffer).blockOffset.toNat =
      offset.toNat % (ext2BlocksizeGet mem (base + 1024)).toNat := UInt32.toNat_mod _ _
  have hleft := toNat_left (s := readStart mem base offset size buffer)
    (by rw [hoff]; exact Nat.mod_lt _ wf.blocksize_pos)
  have hcond : decide ((readStart mem base offset size buffer).left mem (base + 1024) <
      (readStart mem base offset size buffer).index) = false := by
    apply decide_eq_false
    rw [UInt32.not_lt, UInt32.le_iff_toNat_le, hleft, hoff]
    show size.toNat ≤ _
    omega
  rw [ext2Read_eq wf hinode, readLoop, show (2 ^ 32 : ℕ) = 2 ^ 32 - 1 + 1 from rfl, whileLoop_succ,
    hcond]
  rfl

/-- A longer request leaves the buffer's last position alone: each copy goes to the start of the
buffer and none is as long as the request. -/
theorem ext2Read_last (wf : Ext2Image mem base) (hinode : inode ≠ 0) {offset size : UInt32}
    (h : (ext2BlocksizeGet mem (base + 1024)).toNat <
      offset.toNat % (ext2BlocksizeGet mem (base + 1024)).toNat + size.toNat)
    {buffer buffer' : Buffer} {r : UInt32}
    (hret : ext2Read mem offset (some buffer) size inode (base + 1024) =
      some (r, some buffer')) :
    buffer' (size.toNat - 1) = buffer (size.toNat - 1) := by
  have hstart : (readStart mem base offset size buffer).blockOffset.toNat =
      offset.toNat % (ext2BlocksizeGet mem (base + 1024)).toNat := UInt32.toNat_mod _ _
  have hlt : (readStart mem base offset size buffer).blockOffset.toNat <
      (ext2BlocksizeGet mem (base + 1024)).toNat := by
    rw [hstart]
    exact Nat.mod_lt _ wf.blocksize_pos
  have hleft := toNat_left hlt
  have hsize : (readStart mem base offset size buffer).index.toNat = size.toNat := rfl
  have hcond : (readStart mem base offset size buffer).left mem (base + 1024) <
      (readStart mem base offset size buffer).index := by
    rw [UInt32.lt_iff_toNat_lt, hleft, hsize]
    omega
  have hfirst := @ext2ReadTurn_spec mem base inode wf _ hlt hcond
  rw [ext2Read_eq wf hinode, readLoop, show (2 ^ 32 : ℕ) = 2 ^ 32 - 1 + 1 from rfl, whileLoop_succ,
    if_pos (decide_eq_true hcond), Option.bind_some] at hret
  obtain ⟨s, hs, hbuf⟩ := Option.map_eq_some_iff.1 hret
  have hend : readEnd mem base inode s = buffer' := Option.some.inj (Prod.mk.inj hbuf).2
  -- from the second turn on the count is below the size
  have hinv := whileLoop_inv
    (fun s : ReadState => s.blockOffset.toNat < (ext2BlocksizeGet mem (base + 1024)).toNat ∧
      s.index.toNat < size.toNat ∧ s.buffer (size.toNat - 1) = buffer (size.toNat - 1))
    (fun s s' hI hc hs' => by
      obtain ⟨hoff, hidx, hbuf⟩ := hI
      obtain rfl := Option.some.inj hs'
      have hturn := @ext2ReadTurn_spec mem base inode wf _ hoff (of_decide_eq_true hc)
      exact ⟨hturn.1, by omega, (hturn.2.2 _ (by omega)).trans hbuf⟩)
    (2 ^ 32 - 1) _ s
    ⟨hfirst.1, by rw [← hsize]; exact hfirst.2.1, hfirst.2.2 _ (by omega)⟩ hs
  rw [← hend, readEnd, memcpyFrom_of_le _ _ _ _ (by omega)]
  exact hinv.1.2.2

/-! ### When a request is answered rightly -/

/-- The request asks for nothing; or it ends inside the file and inside one block, and if that block
is a hole, the bytes at the address the reader takes in its place are zero. -/
def ReadsWithin (mem : Mem) (base inode offset size : UInt32) : Prop :=
  size = 0 ∨
    (offset.toNat + size.toNat ≤ (Inode.size mem inode).toNat ∧
      offset.toNat % (ext2BlocksizeGet mem (base + 1024)).toNat + size.toNat ≤
        (ext2BlocksizeGet mem (base + 1024)).toNat ∧
      (fileBlock mem base inode (offset / ext2BlocksizeGet mem (base + 1024)) = 0 →
        ∀ k < size.toNat,
          mem (ext2InodeblockGet mem (offset / ext2BlocksizeGet mem (base + 1024)) inode
            (base + 1024) + offset % ext2BlocksizeGet mem (base + 1024) + UInt32.ofNat k) = 0))

/-- Byte `k` after the offset, when the request stays in the offset's block. -/
theorem fileByte_within {offset : UInt32} {k : ℕ}
    (h : offset.toNat % (ext2BlocksizeGet mem (base + 1024)).toNat + k <
      (ext2BlocksizeGet mem (base + 1024)).toNat) :
    fileByte mem base inode (offset.toNat + k) =
      if fileBlock mem base inode (offset / ext2BlocksizeGet mem (base + 1024)) = 0 then 0
      else mem (base + ext2BlocksizeGet mem (base + 1024) *
        fileBlock mem base inode (offset / ext2BlocksizeGet mem (base + 1024)) +
          offset % ext2BlocksizeGet mem (base + 1024) + UInt32.ofNat k) := by
  have hsplit : offset.toNat + k = offset.toNat / (ext2BlocksizeGet mem (base + 1024)).toNat *
      (ext2BlocksizeGet mem (base + 1024)).toNat +
        (offset.toNat % (ext2BlocksizeGet mem (base + 1024)).toNat + k) := by
    have hdm := Nat.div_add_mod offset.toNat (ext2BlocksizeGet mem (base + 1024)).toNat
    rw [Nat.mul_comm] at hdm
    omega
  have hdiv : (offset.toNat + k) / (ext2BlocksizeGet mem (base + 1024)).toNat =
      (offset / ext2BlocksizeGet mem (base + 1024)).toNat := by
    rw [hsplit, UInt32.toNat_div, Nat.mul_comm, Nat.mul_add_div (by omega), Nat.div_eq_of_lt h,
      Nat.add_zero]
  have hmod : (offset.toNat + k) % (ext2BlocksizeGet mem (base + 1024)).toNat =
      (offset % ext2BlocksizeGet mem (base + 1024)).toNat + k := by
    rw [hsplit, UInt32.toNat_mod, Nat.mul_comm, Nat.mul_add_mod, Nat.mod_eq_of_lt h]
  rw [fileByte, hdiv, hmod, ofNat_toNat, UInt32.ofNat_add, ofNat_toNat, ← UInt32.add_assoc]

theorem readOk_of_within (wf : Ext2Image mem base) (hinode : inode ≠ 0)
    (hfits : FitsIndirect mem base inode) {offset size : UInt32}
    (h : ReadsWithin mem base inode offset size) : ReadOk mem base inode offset size := by
  intro buffer
  rcases h with rfl | ⟨hin, hblock, hhole⟩
  · have hlen : readLength mem inode offset 0 = 0 := Nat.zero_min _
    refine ⟨readEnd mem base inode (readStart mem base offset 0 buffer), ?_, ?_, ?_⟩
    · rw [hlen, ext2Read_within wf hinode (Nat.mod_lt _ wf.blocksize_pos).le]
      rfl
    · rw [hlen]
      intro k hk
      omega
    · intro k _
      exact memcpyFrom_of_le _ _ _ _ (Nat.zero_le k)
  · have hlen : readLength mem inode offset size = size.toNat := Nat.min_eq_left (by omega)
    refine ⟨readEnd mem base inode (readStart mem base offset size buffer), ?_, ?_, ?_⟩
    · rw [hlen, ext2Read_within wf hinode hblock, ofNat_toNat]
    · rw [hlen]
      intro k hk
      rw [fileByte_within (by omega), readEnd, memcpyFrom_apply, readStart, if_pos hk]
      split
      · rename_i hzero
        exact hhole hzero k hk
      · rename_i hne
        rw [ext2InodeblockGet_of_ne _ hne]
        rw [UInt32.toNat_div, Nat.div_lt_iff_lt_mul wf.blocksize_pos, Nat.mul_comm]
        rw [FitsIndirect] at hfits
        omega
    · rw [hlen]
      intro k hk
      exact memcpyFrom_of_le _ _ _ _ hk

theorem within_of_readOk (wf : Ext2Image mem base) (hinode : inode ≠ 0) {offset size : UInt32}
    (h : ReadOk mem base inode offset size) : ReadsWithin mem base inode offset size := by
  by_cases hzero : size = 0
  · exact Or.inl hzero
  have hpos := toNat_pos hzero
  -- every result is the size asked for, so that many bytes are owed
  have hlen : readLength mem inode offset size = size.toNat := by
    obtain ⟨b, hb, _⟩ := h fun _ => 0
    obtain ⟨b', hb'⟩ := ext2Read_returns wf hinode offset size fun _ => 0
    rw [hb'] at hb
    have heq := congrArg UInt32.toNat (Prod.mk.inj (Option.some.inj hb)).1
    have hle : readLength mem inode offset size ≤ size.toNat := Nat.min_le_left _ _
    rw [toNat_ofNat_of_lt (by have := size.toNat_lt; omega)] at heq
    exact heq.symm
  have hin : offset.toNat + size.toNat ≤ (Inode.size mem inode).toNat := by
    rw [readLength] at hlen
    omega
  have hblock : offset.toNat % (ext2BlocksizeGet mem (base + 1024)).toNat + size.toNat ≤
      (ext2BlocksizeGet mem (base + 1024)).toNat := by
    by_contra hlt
    -- a buffer whose last byte is not the file's keeps it
    obtain ⟨b, hb, hbytes, _⟩ :=
      h fun k => fileByte mem base inode (offset.toNat + k) + 1
    have hlast := ext2Read_last wf hinode (by omega) hb
    rw [hbytes _ (by omega)] at hlast
    generalize fileByte mem base inode (offset.toNat + (size.toNat - 1)) = c at hlast
    grind
  refine Or.inr ⟨hin, hblock, fun hhole k hk => ?_⟩
  obtain ⟨b, hb, hbytes, _⟩ := h fun _ => 0
  rw [ext2Read_within wf hinode hblock] at hb
  have hend := Option.some.inj (Prod.mk.inj (Option.some.inj hb)).2
  have hbyte := hbytes k (by omega)
  rw [← hend, fileByte_within (by omega), if_pos hhole, readEnd, memcpyFrom_apply, readStart,
    if_pos hk] at hbyte
  exact hbyte

/-- **Reading, exactly.**  A request on a file within reach of its indirect block is answered as the
file has it if and only if it asks for nothing, or ends inside the file and inside one block, which
is no hole or one that the reader happens to find zeros for. -/
theorem read_ok_iff (wf : Ext2Image mem base) (hinode : inode ≠ 0)
    (hfits : FitsIndirect mem base inode) (offset size : UInt32) :
    ReadOk mem base inode offset size ↔ ReadsWithin mem base inode offset size :=
  ⟨within_of_readOk wf hinode, readOk_of_within wf hinode hfits⟩

end Image

/-- The first block of the file in the example image is read rightly. -/
theorem read_ok_first_block : ReadOk image256 0x100000 0x101500 0 1024 :=
  (read_ok_iff image256_wf (by decide) (by unfold FitsIndirect; decide) 0 1024).2
    (Or.inr ⟨by decide, by decide, fun h => absurd h (by decide)⟩)

/-- Both blocks at once are not: the second is copied over the first. -/
theorem read_fails_on_two_blocks : ¬ ReadOk image256 0x100000 0x101500 0 2048 := by
  intro h
  rcases within_of_readOk image256_wf (by decide) h with hzero | ⟨_, hblock, _⟩
  · exact absurd hzero (by decide)
  · exact absurd hblock (by decide)

end CometOS
