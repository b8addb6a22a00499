import CometOS.Ext2Access
import CometOS.Lib.CString

/-!
# When the ext2 reader returns

What each function of the reader gives on a memory, and for which arguments it gives anything: the
divisors and the lengths of the records are taken from the image as they are.  A walk over records
ends if it does not come back to a record it has passed.
-/

namespace CometOS

open ByteMemory CString Reader Word32

variable {mem : Mem} {superblock : UInt32}

/-! ### Values of the straight parts -/

theorem blocksize_val (superblock : UInt32) :
    (ReadBy.ext2BlocksizeGet superblock mem).1 = some (ext2BlocksizeGet mem superblock) := rfl

theorem bgDes_val (g superblock : UInt32) :
    (ReadBy.ext2BgDesGet g superblock mem).1 = some (ext2BgDesGet mem g superblock) := rfl

theorem memcpyFrom_val (src size : UInt32) (buffer : Buffer) :
    (ReadBy.memcpyFrom src size buffer mem).1 = some (memcpyFrom mem src size buffer) := rfl

theorem inodeTypetofile_val (inode : UInt32) :
    (ReadBy.ext2InodeTypetofile inode mem).1 = some (ReadBy.typetofile (read16 mem inode)) := rfl

theorem blockGet_val (block superblock : UInt32) :
    (ReadBy.ext2BlockGet block superblock mem).1 = some (ext2BlockGet mem block superblock) := by
  unfold ReadBy.ext2BlockGet ext2BlockGet
  rw [ite_val]
  split
  · rfl
  · rfl

/-- The record changes nothing: `ext2_inode_get` gives what it gives without. -/
theorem inodeGet_val (inode superblock : UInt32) :
    (ReadBy.ext2InodeGet inode superblock mem).1 = ext2InodeGet mem inode superblock := by
  simp only [ReadBy.ext2InodeGet, ext2InodeGet, bind_val, ite_val, load32_val, load16_val,
    pure_val, trap_val, bgDes_val, blocksize_val, Option.bind_some]
  rfl

theorem inodeblockGet_val (block inode superblock : UInt32) :
    (ReadBy.ext2InodeblockGet block inode superblock mem).1 =
      some (ext2InodeblockGet mem block inode superblock) := by
  simp only [ReadBy.ext2InodeblockGet, ext2InodeblockGet, bind_val, ite_val, load32_val,
    pure_val, blockGet_val, blocksize_val, Option.bind_some, ← apply_ite some]
  rfl

/-! ### Strings -/

/-- The turns of a loop that counts up. -/
theorem iterate_succ_ofNat (k : ℕ) : (fun r : UInt32 => r + 1)^[k] 0 = UInt32.ofNat k := by
  induction k with
  | zero => rfl
  | succ k ih => rw [Function.iterate_succ_apply', ih, ofNat_succ]

/-- What a turn of `strlen` does. -/
theorem strlen_turn (p : UInt32) : Turn (ReadBy.strlenStep p) mem (fun r => mem (p + r) = 0)
    (fun r => r + 1) (fun r => some r) where
  leave r hr := by
    simp only [ReadBy.strlenStep, bind_val, load8_val, Option.bind_some, ite_val, pure_val, hr]
    rfl
  goes r hr := by
    simp only [ReadBy.strlenStep, bind_val, load8_val, Option.bind_some, ite_val, pure_val]
    rw [if_pos hr]

theorem strlen_val {p : UInt32} {xs : List UInt8} (h : StringAt mem p xs) :
    (ReadBy.strlen p mem).1 = some (UInt32.ofNat xs.length) := by
  have hend : mem (p + (fun r : UInt32 => r + 1)^[xs.length] 0) = 0 := by
    rw [iterate_succ_ofNat]
    exact h.terminator
  rw [ReadBy.strlen, (strlen_turn p).val_of_first xs.length 0 (fun j hj => ?_) hend _ h.length_lt,
    iterate_succ_ofNat]
  rw [iterate_succ_ofNat, (h.byte hj).1]
  exact (h.byte hj).2

/-- What a turn of `strcmp` does: two different characters end it like two equal strings. -/
theorem strcmp_turn (a b : UInt32) : Turn (ReadBy.strcmpStep a b) mem
    (fun i => mem (a + i) = 0 ∨ mem (b + i) = 0 ∨ mem (a + i) ≠ mem (b + i)) (fun i => i + 1)
    (fun _ => some 0) where
  leave i hi := by
    simp only [ReadBy.strcmpStep, bind_val, load8_val, Option.bind_some, ite_val, pure_val, peek_val]
    by_cases ha : mem (a + i) = 0
    · rw [if_neg (not_not.2 ha)]
      rfl
    · by_cases hb : mem (b + i) = 0
      · rw [if_pos ha, if_neg (not_not.2 hb)]
        rfl
      · have hne : mem (a + i) ≠ mem (b + i) := by
          rcases hi with hi | hi | hi
          · exact absurd hi ha
          · exact absurd hi hb
          · exact hi
        rw [if_pos ha, if_pos hb, if_pos hne, if_neg]
        · rfl
        · rintro (⟨h0, _⟩ | ⟨_, h0⟩)
          · exact ha h0
          · exact hb h0
  goes i hi := by
    obtain ⟨ha, hb, hsame⟩ : mem (a + i) ≠ 0 ∧ mem (b + i) ≠ 0 ∧ mem (a + i) = mem (b + i) := by
      simp only [not_or, not_not] at hi
      exact hi
    simp only [ReadBy.strcmpStep, bind_val, load8_val, Option.bind_some, ite_val, pure_val, peek_val]
    rw [if_pos ha, if_pos hb, if_neg (not_not.2 hsame)]

/-- **`strcmp` always answers 0**, whatever the strings: it looks for the end of one of them only
where the characters differ, and there is none. -/
theorem strcmp_val {b : UInt32} {xs : List UInt8} (h : StringAt mem b xs) (a : UInt32) :
    (ReadBy.strcmp a b mem).1 = some 0 := by
  classical
  have hend : ∃ k, mem (a + UInt32.ofNat k) = 0 ∨ mem (b + UInt32.ofNat k) = 0 ∨
      mem (a + UInt32.ofNat k) ≠ mem (b + UInt32.ofNat k) :=
    ⟨xs.length, Or.inr (Or.inl h.terminator)⟩
  have hle : Nat.find hend ≤ xs.length := Nat.find_min' hend (Or.inr (Or.inl h.terminator))
  have hfirst := Nat.find_spec hend
  rw [← iterate_succ_ofNat] at hfirst
  rw [ReadBy.strcmp, (strcmp_turn a b).val_of_first (Nat.find hend) 0 (fun j hj => ?_) hfirst _
    (lt_of_le_of_lt hle h.length_lt)]
  rw [iterate_succ_ofNat]
  exact Nat.find_min hend hj

/-- So an entry matches as soon as its `name_len` is the length of the name. -/
theorem entryMatches_val {name : UInt32} {xs : List UInt8} (h : StringAt mem name xs)
    (ent : UInt32) :
    (ReadBy.entryMatches ent name mem).1 =
      some (decide (UInt32.ofNat xs.length = (read16 mem (ent + 6)).toUInt32)) := by
  simp only [ReadBy.entryMatches, bind_val, peek_val, strlen_eq h, load16_val, Option.bind_some,
    ite_val, strcmp_val h, pure_val]
  split
  · rename_i hlen
    rw [decide_eq_true hlen]
    rfl
  · rename_i hlen
    rw [decide_eq_false hlen]

/-! ### Finding an inode -/

/-- `ext2_inode_get` divides by nothing that is 0: the inode number is out of range, or a group has
some inodes and some blocks. -/
def NoZeroDivisor (mem : Mem) (superblock inode : UInt32) : Prop :=
  Superblock.inodeTotal mem superblock < inode ∨
    (Superblock.inodePerGroup mem superblock ≠ 0 ∧ Superblock.blockPerGroup mem superblock ≠ 0)

/-- Where the reader looks for an inode, 0 for nowhere. -/
def inodeSlot (mem : Mem) (superblock inode : UInt32) : UInt32 :=
  let blockGroup := (inode - 1) / Superblock.inodePerGroup mem superblock
  if Superblock.inodeTotal mem superblock < inode then 0
  else if Superblock.blockTotal mem superblock / Superblock.blockPerGroup mem superblock <
      blockGroup then 0
  else
    superblock + (ext2BlocksizeGet mem superblock *
        inodeTableAddr mem (ext2BgDesGet mem blockGroup superblock) - 1024) +
      (Superblock.inodeSize mem superblock).toUInt32 *
        ((inode - 1) % Superblock.inodePerGroup mem superblock)

theorem inodeGet_of_noZeroDivisor {inode : UInt32} (h : NoZeroDivisor mem superblock inode) :
    ext2InodeGet mem inode superblock = some (inodeSlot mem superblock inode) := by
  unfold ext2InodeGet inodeSlot
  by_cases htotal : Superblock.inodeTotal mem superblock < inode
  · simp only [if_pos htotal]
  · obtain ⟨hinodes, hblocks⟩ := h.resolve_left htotal
    simp only [if_neg htotal, if_neg hinodes, if_neg hblocks]
    split
    · rfl
    · rfl

theorem inodeGet_eq_none {inode : UInt32} (h : ¬ NoZeroDivisor mem superblock inode) :
    ext2InodeGet mem inode superblock = none := by
  simp only [NoZeroDivisor, not_or, not_and_or, ne_eq, not_not] at h
  obtain ⟨htotal, hzero⟩ := h
  simp only [ext2InodeGet, if_neg htotal]
  by_cases hinodes : Superblock.inodePerGroup mem superblock = 0
  · rw [if_pos hinodes]
  · rw [if_neg hinodes, if_pos (hzero.resolve_left hinodes)]

theorem inodeGet_ne_none {inode : UInt32} :
    ext2InodeGet mem inode superblock ≠ none ↔ NoZeroDivisor mem superblock inode := by
  by_cases h : NoZeroDivisor mem superblock inode
  · simp only [inodeGet_of_noZeroDivisor h, h, ne_eq, reduceCtorEq, not_false_eq_true]
  · simp only [inodeGet_eq_none h, h, ne_eq, not_true_eq_false]

/-! ### Reading a file -/

/-- What a turn of `ext2_read` does. -/
theorem readStep_turn (inode superblock : UInt32) :
    Turn (ReadBy.ext2ReadStep inode superblock) mem (fun s => s.index ≤ s.left mem superblock)
      (ext2ReadTurn mem inode superblock)
      (fun s => some (memcpyFrom mem
        (ext2InodeblockGet mem s.block inode superblock + s.blockOffset) s.index s.buffer)) where
  leave s hs := by
    have hs' : s.index ≤ ext2BlocksizeGet mem superblock - s.blockOffset := hs
    simp only [ReadBy.ext2ReadStep, bind_val, inodeblockGet_val, blocksize_val, Option.bind_some,
      ite_val, if_pos hs']
    rfl
  goes s hs := by
    have hs' : ¬ s.index ≤ ext2BlocksizeGet mem superblock - s.blockOffset := hs
    simp only [ReadBy.ext2ReadStep, bind_val, inodeblockGet_val, blocksize_val, Option.bind_some,
      ite_val, if_neg hs']
    rfl

theorem readStart_val (offset superblock : UInt32) :
    (ReadBy.ext2ReadStart offset superblock mem).1 =
      if offset ≠ 0 then
        if ext2BlocksizeGet mem superblock = 0 then none
        else some (offset / ext2BlocksizeGet mem superblock, offset % ext2BlocksizeGet mem superblock)
      else some (0, 0) := by
  simp only [ReadBy.ext2ReadStart, bind_val, blocksize_val, Option.bind_some, ite_val, pure_val,
    trap_val]

theorem readLoop_val (size inode superblock : UInt32) (n : ℕ) (s : ReadState) :
    ((Prog.loop (ReadBy.ext2ReadStep inode superblock) n s >>= fun b =>
      pure (size, some b) : Prog (UInt32 × Option Buffer)) mem).1 =
      (Loop.whileLoop (fun s : ReadState => s.left mem superblock < s.index)
        (fun s => some (ext2ReadTurn mem inode superblock s)) n s).map fun s =>
          (size, some (memcpyFrom mem
            (ext2InodeblockGet mem s.block inode superblock + s.blockOffset) s.index s.buffer)) := by
  rw [bind_val, (readStep_turn inode superblock).val_eq, Option.bind_assoc]
  simp only [UInt32.not_le, Option.bind_some, pure_val]
  rw [Option.map_eq_bind]
  rfl

/-- The record changes nothing: `ext2_read` gives what it gives without. -/
theorem read_val (offset : UInt32) (buffer : Option Buffer) (size inode superblock : UInt32) :
    (ReadBy.ext2Read (2 ^ 32) offset buffer size inode superblock mem).1 =
      ext2Read mem offset buffer size inode superblock := by
  cases buffer with
  | none => rfl
  | some b =>
    simp only [ReadBy.ext2Read, ext2Read, ite_val, pure_val]
    by_cases hnull : inode = 0 ∨ superblock = 0
    · rw [if_pos hnull, if_pos hnull]
    · rw [if_neg hnull, if_neg hnull, bind_val, readStart_val]
      by_cases hoff : offset = 0
      · simp only [hoff, ne_eq, not_true_eq_false, false_and, if_false, Option.bind_some,
          readLoop_val]
      · by_cases hbs : ext2BlocksizeGet mem superblock = 0
        · simp only [hoff, hbs, ne_eq, not_false_eq_true, true_and, if_true, Option.bind_none]
        · simp only [hoff, hbs, ne_eq, not_false_eq_true, and_false, if_true, if_false,
            Option.bind_some, readLoop_val]

/-- The block size is not 0; or nothing is divided by it and nothing is asked for. -/
def ReadEnds (mem : Mem) (superblock offset : UInt32) (buffer : Option Buffer)
    (size inode : UInt32) : Prop :=
  buffer = none ∨ inode = 0 ∨ superblock = 0 ∨ ext2BlocksizeGet mem superblock ≠ 0 ∨
    (offset = 0 ∧ size = 0)

/-- With blocks that are not empty each turn takes something off the count. -/
theorem read_exists_end (hbs : ext2BlocksizeGet mem superblock ≠ 0) (inode : UInt32) :
    ∀ (n : ℕ) (s : ReadState), s.index.toNat ≤ n →
      s.blockOffset.toNat < (ext2BlocksizeGet mem superblock).toNat →
      ∃ k, ((ext2ReadTurn mem inode superblock)^[k] s).index ≤
        ((ext2ReadTurn mem inode superblock)^[k] s).left mem superblock := by
  have hpos := toNat_pos hbs
  intro n
  induction n with
  | zero =>
    intro s hn _
    refine ⟨0, ?_⟩
    rw [Function.iterate_zero_apply, UInt32.le_iff_toNat_le]
    omega
  | succ n ih =>
    intro s hn hoff
    by_cases hend : s.index ≤ s.left mem superblock
    · exact ⟨0, hend⟩
    · rw [UInt32.le_iff_toNat_le] at hend
      have hleft : (s.left mem superblock).toNat =
          (ext2BlocksizeGet mem superblock).toNat - s.blockOffset.toNat := toNat_sub_of_le (by omega)
      have hindex : (ext2ReadTurn mem inode superblock s).index.toNat =
          s.index.toNat - (s.left mem superblock).toNat := toNat_sub_of_le (by omega)
      obtain ⟨k, hk⟩ := ih (ext2ReadTurn mem inode superblock s) (by omega) hpos
      exact ⟨k + 1, by rw [Function.iterate_succ_apply]; exact hk⟩

/-- With empty blocks the count stays as it is. -/
theorem read_stuck (hbs : ext2BlocksizeGet mem superblock = 0) (inode : UInt32) (k : ℕ)
    {s : ReadState} (hoff : s.blockOffset = 0) :
    ((ext2ReadTurn mem inode superblock)^[k] s).index = s.index ∧
      ((ext2ReadTurn mem inode superblock)^[k] s).blockOffset = 0 := by
  induction k with
  | zero => exact ⟨rfl, hoff⟩
  | succ k ih =>
    rw [Function.iterate_succ_apply']
    refine ⟨?_, rfl⟩
    show _ - (ext2BlocksizeGet mem superblock - _) = _
    rw [hbs, ih.2, ih.1]
    grind

/-- **`ext2_read` returns** exactly under `ReadEnds`. -/
theorem read_returns_iff (offset : UInt32) (buffer : Option Buffer) (size inode : UInt32) :
    Returns (fun n => ReadBy.ext2Read n offset buffer size inode superblock) mem ↔
      ReadEnds mem superblock offset buffer size inode := by
  cases buffer with
  | none => exact ⟨fun _ => Or.inl rfl, fun _ => ⟨0, Option.some_ne_none _⟩⟩
  | some b =>
    by_cases hnull : inode = 0 ∨ superblock = 0
    · refine iff_of_true ?_ (Or.inr (hnull.imp_right Or.inl))
      simp only [ReadBy.ext2Read, if_pos hnull]
      exact returns_const.2 (Option.some_ne_none _)
    · have hends : ReadEnds mem superblock offset (some b) size inode ↔
          ext2BlocksizeGet mem superblock ≠ 0 ∨ (offset = 0 ∧ size = 0) := by
        simp only [ReadEnds, reduceCtorEq, false_or, ← or_assoc, hnull]
      simp only [ReadBy.ext2Read, if_neg hnull, hends]
      by_cases hoff : offset = 0
      · rw [returns_bind_of (a := ((0, 0) : UInt32 × UInt32)) (by rw [readStart_val, hoff]; rfl),
          returns_bind_total fun _ => Option.some_ne_none _,
          (readStep_turn inode superblock).returns_iff]
        by_cases hbs : ext2BlocksizeGet mem superblock = 0
        · constructor
          · rintro ⟨⟨k, hk⟩, _⟩
            obtain ⟨hindex, hoffset⟩ :=
              read_stuck hbs inode k (s := ⟨size, 0, 0, b⟩) rfl
            have hleft : ((ext2ReadTurn mem inode superblock)^[k] ⟨size, 0, 0, b⟩).left mem
                superblock = 0 := by
              rw [ReadState.left, hbs, hoffset]
              rfl
            rw [hindex, hleft] at hk
            exact Or.inr ⟨hoff, UInt32.le_zero_iff.1 hk⟩
          · intro h
            obtain ⟨_, rfl⟩ := h.resolve_left fun h => h hbs
            exact ⟨⟨0, UInt32.zero_le⟩, fun _ _ _ => Option.some_ne_none _⟩
        · refine iff_of_true ⟨?_, fun _ _ _ => Option.some_ne_none _⟩ (Or.inl hbs)
          exact read_exists_end hbs inode _ _ le_rfl (toNat_pos hbs)
      · by_cases hbs : ext2BlocksizeGet mem superblock = 0
        · refine iff_of_false (not_returns_bind ?_) ?_
          · rw [readStart_val, if_pos hoff, if_pos hbs]
          · rintro (h | ⟨h, _⟩)
            · exact h hbs
            · exact hoff h
        · refine iff_of_true ?_ (Or.inl hbs)
          rw [returns_bind_of (a := (offset / ext2BlocksizeGet mem superblock,
              offset % ext2BlocksizeGet mem superblock))
              (by rw [readStart_val, if_pos hoff, if_neg hbs]),
            returns_bind_total fun _ => Option.some_ne_none _,
            (readStep_turn inode superblock).returns_iff]
          refine ⟨?_, fun _ _ _ => Option.some_ne_none _⟩
          refine read_exists_end hbs inode _ _ le_rfl ?_
          show (offset % ext2BlocksizeGet mem superblock).toNat < _
          rw [UInt32.toNat_mod]
          exact Nat.mod_lt _ (toNat_pos hbs)

/-! ### Walking a directory -/

/-- `rec_len` of an entry. -/
def recLen (mem : Mem) (ent : UInt32) : UInt16 := read16 mem (ent + 4)

/-- Where entry `k` of a directory block starts: the lengths of the records before it. -/
def entryOffset (mem : Mem) (block : UInt32) : ℕ → ℕ
  | 0 => 0
  | k + 1 => entryOffset mem block k +
    (recLen mem (block + UInt32.ofNat (entryOffset mem block k))).toNat

theorem entryOffset_mono (mem : Mem) (block : UInt32) : Monotone (entryOffset mem block) :=
  monotone_nat_of_le_succ fun _ => Nat.le_add_right _ _

/-- What a turn of `ext2_direntry_get` goes on to. -/
def direntryNext (mem : Mem) (inode superblock : UInt32) (s : ReadBy.DirCursor) :
    ReadBy.DirCursor :=
  if ext2BlocksizeGet mem superblock ≤ s.offset then
    { s with
      blockNumber := s.blockNumber + 1
      block := ext2InodeblockGet mem (s.blockNumber + 1) inode superblock }
  else
    { s with offset := s.offset + (recLen mem (s.block + s.offset)).toUInt32, i := s.i + 1 }

/-- What it leaves with. -/
def direntryEnd (index : UInt32) (s : ReadBy.DirCursor) : UInt32 :=
  if s.i < index then 0 else if s.i = index then s.block + s.offset else 0

/-- What a turn of `ext2_direntry_get` does. -/
theorem direntryStep_turn (index inode superblock : UInt32) :
    Turn (ReadBy.ext2DirentryStep index inode superblock) mem
      (fun s => ¬ s.i < index ∨ Inode.size mem inode < s.offset)
      (direntryNext mem inode superblock) (fun s => some (direntryEnd index s)) where
  leave s hs := by
    by_cases hi : s.i < index
    · have hsize : read32 mem (inode + 4) < s.offset := hs.resolve_left (not_not.2 hi)
      simp only [ReadBy.ext2DirentryStep, direntryEnd, if_pos hi, bind_val, load32_val,
        Option.bind_some, ite_val, if_pos hsize]
      rfl
    · simp only [ReadBy.ext2DirentryStep, direntryEnd, if_neg hi, ite_val, pure_val]
      split
      · rfl
      · rfl
  goes s hs := by
    obtain ⟨hi, hsize⟩ := not_or.1 hs
    have hsize' : ¬ read32 mem (inode + 4) < s.offset := hsize
    simp only [ReadBy.ext2DirentryStep, direntryNext, if_pos (not_not.1 hi), bind_val, load32_val,
      load16_val, blocksize_val, inodeblockGet_val, Option.bind_some, ite_val, if_neg hsize',
      pure_val]
    split
    · rfl
    · rfl

/-- The cursor at entry `k` of the first block. -/
def cursorAt (mem : Mem) (block : UInt32) (k : ℕ) : ReadBy.DirCursor :=
  ⟨0, block, UInt32.ofNat (entryOffset mem block k), UInt32.ofNat k⟩

section Walk

variable {block inode : UInt32} {k : ℕ}

/-- While the entries start inside the block the cursor goes from one to the next. -/
theorem direntry_walk (h : ∀ j < k, entryOffset mem block j < (ext2BlocksizeGet mem superblock).toNat) :
    (direntryNext mem inode superblock)^[k] (cursorAt mem block 0) = cursorAt mem block k := by
  have hbs := (blocksize_shape mem superblock).1
  induction k with
  | zero => rfl
  | succ k ih =>
    have hk := h k (Nat.lt_succ_self k)
    rw [Function.iterate_succ_apply', ih fun j hj => h j (by omega), direntryNext, if_neg]
    · simp only [cursorAt, entryOffset, UInt32.ofNat_add, ofNat_succ, UInt32.ofNat_uInt16ToNat]
    · rw [UInt32.le_iff_toNat_le, cursorAt, toNat_ofNat_of_lt (by omega)]
      omega

/-- The next entry may start behind the block, but not far. -/
theorem entryOffset_lt
    (h : ∀ j < k, entryOffset mem block j < (ext2BlocksizeGet mem superblock).toNat) :
    entryOffset mem block k < 2 ^ 32 := by
  have hbs := (blocksize_shape mem superblock).1
  cases k with
  | zero => exact Nat.two_pow_pos 32
  | succ k =>
    have hk := h k (Nat.lt_succ_self k)
    have hlen := (recLen mem (block + UInt32.ofNat (entryOffset mem block k))).toNat_lt
    rw [entryOffset]
    omega

/-- From an entry that starts behind the block the cursor goes from block to block for ever. -/
theorem direntry_stuck (inode : UInt32) {s : ReadBy.DirCursor}
    (h : ext2BlocksizeGet mem superblock ≤ s.offset) (m : ℕ) :
    ((direntryNext mem inode superblock)^[m] s).offset = s.offset ∧
      ((direntryNext mem inode superblock)^[m] s).i = s.i := by
  induction m with
  | zero => exact ⟨rfl, rfl⟩
  | succ m ih =>
    rw [Function.iterate_succ_apply', direntryNext, if_pos (by rw [ih.1]; exact h)]
    exact ih

variable {index : UInt32} {j : ℕ}

/-- Up to an entry that is asked for and starts inside the directory, the walk goes on. -/
theorem direntry_open (hlt : j < index.toNat)
    (hinside : entryOffset mem block j ≤ (Inode.size mem inode).toNat) (hkj : k ≤ j) :
    ¬ (¬ (cursorAt mem block k).i < index ∨ Inode.size mem inode < (cursorAt mem block k).offset) := by
  have hsize := (Inode.size mem inode).toNat_lt
  have hindex := index.toNat_lt
  have hmono := entryOffset_mono mem block hkj
  rw [UInt32.lt_iff_toNat_lt, UInt32.lt_iff_toNat_lt, cursorAt, toNat_ofNat_of_lt (by omega),
    toNat_ofNat_of_lt (by omega)]
  omega

/-- Behind such an entry that starts behind the block as well, there is no way out. -/
theorem direntry_for_ever (hlt : j < index.toNat)
    (hinside : entryOffset mem block j ≤ (Inode.size mem inode).toNat)
    (hbehind : (ext2BlocksizeGet mem superblock).toNat ≤ entryOffset mem block j)
    (hbefore : ∀ i < j, entryOffset mem block i < (ext2BlocksizeGet mem superblock).toNat) (m : ℕ) :
    ¬ (¬ ((direntryNext mem inode superblock)^[m] (cursorAt mem block 0)).i < index ∨
      Inode.size mem inode < ((direntryNext mem inode superblock)^[m] (cursorAt mem block 0)).offset) := by
  by_cases hmj : m ≤ j
  · rw [direntry_walk fun i hi => hbefore i (by omega)]
    exact direntry_open hlt hinside hmj
  · rw [show m = (m - j) + j by omega, Function.iterate_add_apply, direntry_walk hbefore]
    have hle : ext2BlocksizeGet mem superblock ≤ (cursorAt mem block j).offset := by
      rw [UInt32.le_iff_toNat_le, cursorAt,
        toNat_ofNat_of_lt (hinside.trans_lt (Inode.size mem inode).toNat_lt)]
      exact hbehind
    obtain ⟨hoffset, hi⟩ := direntry_stuck inode hle (m - j)
    rw [hoffset, hi]
    exact direntry_open hlt hinside le_rfl

/-- With all entries inside the block, or behind the end of the directory, the walk has an end. -/
theorem direntry_leaves
    (h : ∀ k < index.toNat, entryOffset mem block k < (ext2BlocksizeGet mem superblock).toNat ∨
      (Inode.size mem inode).toNat < entryOffset mem block k) :
    ∃ m, ¬ ((direntryNext mem inode superblock)^[m] (cursorAt mem block 0)).i < index ∨
      Inode.size mem inode < ((direntryNext mem inode superblock)^[m] (cursorAt mem block 0)).offset := by
  classical
  by_cases hex : ∃ j, j < index.toNat ∧ (Inode.size mem inode).toNat < entryOffset mem block j
  · -- the first entry that starts behind the end
    obtain ⟨hlt, hend⟩ := Nat.find_spec hex
    generalize hfind : Nat.find hex = j at hlt hend
    have hbefore : ∀ i < j, entryOffset mem block i < (ext2BlocksizeGet mem superblock).toNat := by
      intro i hi
      have hmin := Nat.find_min hex (hfind ▸ hi)
      have hi' := h i (by omega)
      omega
    refine ⟨j, Or.inr ?_⟩
    rw [direntry_walk hbefore, UInt32.lt_iff_toNat_lt, cursorAt,
      toNat_ofNat_of_lt (entryOffset_lt hbefore)]
    exact hend
  · have hbefore : ∀ i < index.toNat,
        entryOffset mem block i < (ext2BlocksizeGet mem superblock).toNat := by
      intro i hi
      exact (h i hi).resolve_right fun hend => hex ⟨i, hi, hend⟩
    refine ⟨index.toNat, Or.inl ?_⟩
    rw [direntry_walk hbefore, cursorAt, ofNat_toNat]
    exact UInt32.lt_irrefl index

end Walk

/-- Each of the first `index` entries starts inside the first block of the directory, or behind the
end of the directory. -/
def DirentryEnds (mem : Mem) (superblock inode index : UInt32) : Prop :=
  ∀ k < index.toNat,
    entryOffset mem (ext2InodeblockGet mem 0 inode superblock) k <
        (ext2BlocksizeGet mem superblock).toNat ∨
      (Inode.size mem inode).toNat < entryOffset mem (ext2InodeblockGet mem 0 inode superblock) k

/-- **`ext2_direntry_get` returns** exactly under `DirentryEnds`. -/
theorem direntry_returns_iff (index inode : UInt32) :
    Returns (fun n => ReadBy.ext2DirentryGet n index inode superblock) mem ↔
      DirentryEnds mem superblock inode index := by
  classical
  unfold ReadBy.ext2DirentryGet DirentryEnds
  rw [returns_bind_of (inodeblockGet_val 0 inode superblock),
    (direntryStep_turn index inode superblock).returns_iff]
  generalize ext2InodeblockGet mem 0 inode superblock = block
  have hstart : (⟨0, block, 0, 0⟩ : ReadBy.DirCursor) = cursorAt mem block 0 := rfl
  rw [hstart]
  constructor
  · rintro ⟨⟨m, hm⟩, _⟩
    by_contra hbad
    -- the first entry that starts behind the block and inside the directory
    have hex : ∃ j, j < index.toNat ∧ (ext2BlocksizeGet mem superblock).toNat ≤ entryOffset mem block j ∧
        entryOffset mem block j ≤ (Inode.size mem inode).toNat := by
      simp only [not_forall, not_or, not_lt] at hbad
      obtain ⟨j, hj, h1, h2⟩ := hbad
      exact ⟨j, hj, h1, h2⟩
    obtain ⟨hlt, hbehind, hinside⟩ := Nat.find_spec hex
    generalize hfind : Nat.find hex = j at hlt hbehind hinside
    have hbefore : ∀ i < j, entryOffset mem block i < (ext2BlocksizeGet mem superblock).toNat := by
      intro i hi
      have hmin := Nat.find_min hex (hfind ▸ hi)
      have hmono := entryOffset_mono mem block hi.le
      omega
    exact direntry_for_ever hlt hinside hbehind hbefore m hm
  · intro h
    exact ⟨direntry_leaves h, fun _ _ _ => Option.some_ne_none _⟩

/-! ### Finding a name -/

/-- `name_len` of an entry. -/
def nameLen (mem : Mem) (ent : UInt32) : UInt16 := read16 mem (ent + 6)

/-- From the record at `index` of a block to the next one. -/
def nextRecord (mem : Mem) (block index : UInt32) : UInt32 :=
  index + (recLen mem (block + index)).toUInt32

/-- The offset of record `k`, going round the address space. -/
def recordAt (mem : Mem) (block : UInt32) (k : ℕ) : UInt32 := (nextRecord mem block)^[k] 0

/-- `initrd_finddir` goes no further than this record: it lies behind the end of the directory, or
its name is as long as the one looked for. -/
def WalkStops (mem : Mem) (block size length index : UInt32) : Prop :=
  ¬ index < size ∨ length = (nameLen mem (block + index)).toUInt32

section Finddir

variable {code : ReadBy.InitrdCode} {file ent name : UInt32} {fresh : Buffer} {xs : List UInt8}

/-- With a string at the entry's name, what is found is given unless its inode number makes
`ext2_inode_get` divide by 0. -/
theorem found_ne_none (hent : StringAt mem (ent + 8) xs) :
    (ReadBy.initrdFound code file fresh ent superblock mem).1 ≠ none ↔
      NoZeroDivisor mem superblock (read32 mem ent) := by
  simp only [ReadBy.initrdFound, ReadBy.strcpy, bind_val, load16_val, load32_val, inodeGet_val,
    strlen_val hent, memcpyFrom_val, inodeTypetofile_val, pure_val, Option.bind_some, ite_val]
  by_cases h : NoZeroDivisor mem superblock (read32 mem ent)
  · simp only [inodeGet_of_noZeroDivisor h, Option.bind_some]
    refine iff_of_true ?_ h
    split
    · exact Option.some_ne_none _
    · exact Option.some_ne_none _
  · simp only [inodeGet_eq_none h, Option.bind_none]
    exact iff_of_false (fun hn => hn rfl) h

/-- A turn of `initrd_finddir`, whatever is done with the entry that is found. -/
def finddirTurn {γ : Type} (found : UInt32 → Prog γ) (absent : γ)
    (block inode name index : UInt32) : Prog (UInt32 ⊕ γ) := do
  let size ← Prog.load32 (inode + 4)
  if index < size then do
    let matched ← ReadBy.entryMatches (block + index) name
    if matched = true then do
      let r ← found (block + index)
      pure (.inr r)
    else do
      let recLen ← Prog.load16 (block + index + 4)
      pure (.inl (index + recLen.toUInt32))
  else pure (.inr absent)

/-- It goes to the next record unless the walk stops, and then leaves with what is found. -/
theorem finddirTurn_turn {γ : Type} (found : UInt32 → Prog γ) (absent : γ)
    (hname : StringAt mem name xs) (block inode : UInt32) :
    Turn (finddirTurn found absent block inode name) mem
      (WalkStops mem block (Inode.size mem inode) (UInt32.ofNat xs.length)) (nextRecord mem block)
      (fun index => if index < Inode.size mem inode then (found (block + index) mem).1
        else some absent) where
  leave index h := by
    simp only [finddirTurn, bind_val, load32_val, Option.bind_some, ite_val,
      entryMatches_val hname, pure_val, decide_eq_true_eq]
    by_cases hin : index < Inode.size mem inode
    · have hin' : index < read32 mem (inode + 4) := hin
      have hlen : UInt32.ofNat xs.length = (read16 mem (block + index + 6)).toUInt32 :=
        h.resolve_left (not_not.2 hin)
      rw [if_pos hin', if_pos hlen, if_pos hin, Option.map_eq_bind]
      rfl
    · have hin' : ¬ index < read32 mem (inode + 4) := hin
      rw [if_neg hin', if_neg hin]
      rfl
  goes index h := by
    obtain ⟨hin, hlen⟩ := not_or.1 h
    have hin' : index < read32 mem (inode + 4) := not_not.1 hin
    have hlen' : ¬ UInt32.ofNat xs.length = (read16 mem (block + index + 6)).toUInt32 := hlen
    simp only [finddirTurn, bind_val, load32_val, load16_val, Option.bind_some, ite_val,
      entryMatches_val hname, pure_val, decide_eq_true_eq, if_pos hin', if_neg hlen']
    rfl

/-- What a turn of `initrd_finddir` leaves with. -/
def finddirEnd (mem : Mem) (code : ReadBy.InitrdCode) (file : UInt32) (fresh : Buffer)
    (block size superblock index : UInt32) : Option (UInt32 × Buffer) :=
  if index < size then (ReadBy.initrdFound code file fresh (block + index) superblock mem).1
  else some (0, fresh)

/-- The end of the walk is no trap: the name's end is an end for every string. -/
theorem finddirEnd_ne_none (hname : StringAt mem name xs) (block size index : UInt32) :
    finddirEnd mem code file fresh block size superblock index ≠ none ↔
      (index < size → NoZeroDivisor mem superblock (read32 mem (block + index))) := by
  unfold finddirEnd
  split
  · rename_i hin
    obtain ⟨ys, hys⟩ := exists_stringAt hname.terminator (block + index + 8)
    rw [found_ne_none hys]
    exact ⟨fun h _ => h, fun h => h hin⟩
  · rename_i hin
    exact iff_of_true (Option.some_ne_none _) fun h => absurd h hin

/-- What a turn of `initrd_finddir` does. -/
theorem finddirStep_turn (hname : StringAt mem name xs) (block inode : UInt32) :
    Turn (ReadBy.initrdFinddirStep code file fresh block inode name superblock) mem
      (WalkStops mem block (Inode.size mem inode) (UInt32.ofNat xs.length)) (nextRecord mem block)
      (finddirEnd mem code file fresh block (Inode.size mem inode) superblock) :=
  finddirTurn_turn (fun ent => ReadBy.initrdFound code file fresh ent superblock) (0, fresh) hname
    block inode

/-- The records of a directory block lead to an end: going from one to the next, one does not come
back to a record passed before without having met one that stops the walk; and the inode number of a
match makes `ext2_inode_get` divide by nothing that is 0. -/
def FinddirWalkEnds (mem : Mem) (superblock inode block length : UInt32) : Prop :=
  (∀ j k, j < k → recordAt mem block j = recordAt mem block k →
    ∃ i < k, WalkStops mem block (Inode.size mem inode) length (recordAt mem block i)) ∧
  ∀ k, (∀ j < k, ¬ WalkStops mem block (Inode.size mem inode) length (recordAt mem block j)) →
    recordAt mem block k < Inode.size mem inode →
    length = (nameLen mem (block + recordAt mem block k)).toUInt32 →
    NoZeroDivisor mem superblock (read32 mem (block + recordAt mem block k))

/-- The node's inode can be looked for; and if it is a directory with a first block, the records of
that block lead to an end. -/
def FinddirEnds (mem : Mem) (superblock node length : UInt32) : Prop :=
  NoZeroDivisor mem superblock (ReadBy.nodeInode mem node) ∧
    let inode := inodeSlot mem superblock (ReadBy.nodeInode mem node)
    let block := ext2InodeblockGet mem 0 inode superblock
    (node ≠ 0 → read16 mem inode &&& 0x4000 ≠ 0 → block ≠ 0 →
      FinddirWalkEnds mem superblock inode block length)

/-- **`initrd_finddir` returns** exactly under `FinddirEnds`. -/
theorem finddir_returns_iff (hname : StringAt mem name xs) (node : UInt32) :
    Returns (fun n => ReadBy.initrdFinddir n code file fresh node name superblock) mem ↔
      FinddirEnds mem superblock node (UInt32.ofNat xs.length) := by
  unfold ReadBy.initrdFinddir FinddirEnds
  rw [returns_bind_of (a := ReadBy.nodeInode mem node) rfl]
  by_cases hdiv : NoZeroDivisor mem superblock (ReadBy.nodeInode mem node)
  · rw [returns_bind_of (by rw [inodeGet_val, inodeGet_of_noZeroDivisor hdiv]),
      returns_bind_of (inodeblockGet_val _ _ _), and_iff_right hdiv]
    simp only
    generalize inodeSlot mem superblock (ReadBy.nodeInode mem node) = inode
    generalize ext2InodeblockGet mem 0 inode superblock = block
    by_cases hnode : node = 0
    · simp only [if_pos hnode]
      exact iff_of_true (returns_const.2 (Option.some_ne_none _)) fun h => absurd hnode h
    · simp only [if_neg hnode]
      rw [returns_bind_of (load16_val inode)]
      by_cases hdir : read16 mem inode &&& 0x4000 = 0 ∨ block = 0
      · simp only [if_pos hdir]
        refine iff_of_true (returns_const.2 (Option.some_ne_none _)) fun _ htype hblock => ?_
        rcases hdir with h | h
        · exact absurd h htype
        · exact absurd h hblock
      · simp only [if_neg hdir]
        obtain ⟨htype, hblock⟩ := not_or.1 hdir
        rw [(finddirStep_turn hname block inode).returns_iff, exists_end_iff]
        constructor
        · rintro ⟨hback, hmatch⟩ _ _ _
          refine ⟨hback, fun k hbefore hin hlen => ?_⟩
          exact (finddirEnd_ne_none hname _ _ _).1 (hmatch k hbefore (Or.inr hlen)) hin
        · intro h
          obtain ⟨hback, hmatch⟩ := h hnode htype hblock
          refine ⟨hback, fun k hbefore hstop => ?_⟩
          rw [finddirEnd_ne_none hname]
          intro hin
          exact hmatch k hbefore hin (hstop.resolve_left (not_not.2 hin))
  · refine iff_of_false (not_returns_bind ?_) fun h => hdiv h.1
    rw [inodeGet_val, inodeGet_eq_none hdiv]

/-- **`initrd_readdir` returns** exactly when the node's inode can be looked for and
`ext2_direntry_get` returns. -/
theorem readdir_returns_iff (entry node index : UInt32) (fresh : Buffer) :
    Returns (fun n => ReadBy.initrdReaddir n entry fresh node index superblock) mem ↔
      NoZeroDivisor mem superblock (ReadBy.nodeInode mem node) ∧
        DirentryEnds mem superblock (inodeSlot mem superblock (ReadBy.nodeInode mem node)) index := by
  unfold ReadBy.initrdReaddir
  rw [returns_bind_of (a := ReadBy.nodeInode mem node) rfl]
  by_cases hdiv : NoZeroDivisor mem superblock (ReadBy.nodeInode mem node)
  · rw [returns_bind_of (by rw [inodeGet_val, inodeGet_of_noZeroDivisor hdiv]),
      returns_bind_total, direntry_returns_iff]
    · exact (and_iff_right hdiv).symm
    · intro ent
      rw [ite_val]
      split
      · exact Option.some_ne_none _
      · exact Option.some_ne_none _
  · refine iff_of_false (not_returns_bind ?_) fun h => hdiv h.1
    rw [inodeGet_val, inodeGet_eq_none hdiv]

end Finddir

/-! ### The calls of the reader -/

/-- A call of one of the functions that go over the image. -/
inductive Ext2Call
  | inodeGet (inode : UInt32)
  | inodeblockGet (block inode : UInt32)
  | read (offset : UInt32) (buffer : Option Buffer) (size inode : UInt32)
  | direntryGet (index inode : UInt32)
  | finddir (code : ReadBy.InitrdCode) (file : UInt32) (fresh : Buffer) (node name : UInt32)

namespace Ext2Call

/-- The call as a program that is given `n` turns for its loop over the image. -/
def prog (superblock : UInt32) (n : ℕ) : Ext2Call → Prog Unit
  | .inodeGet inode => ReadBy.ext2InodeGet inode superblock >>= fun _ => pure ()
  | .inodeblockGet block inode =>
    ReadBy.ext2InodeblockGet block inode superblock >>= fun _ => pure ()
  | .read offset buffer size inode =>
    ReadBy.ext2Read n offset buffer size inode superblock >>= fun _ => pure ()
  | .direntryGet index inode =>
    ReadBy.ext2DirentryGet n index inode superblock >>= fun _ => pure ()
  | .finddir code file fresh node name =>
    ReadBy.initrdFinddir n code file fresh node name superblock >>= fun _ => pure ()

/-- A name is a string. -/
def NameIs (mem : Mem) (xs : List UInt8) : Ext2Call → Prop
  | .inodeGet _ => True
  | .inodeblockGet _ _ => True
  | .read _ _ _ _ => True
  | .direntryGet _ _ => True
  | .finddir _ _ _ _ name => StringAt mem name xs

/-- When the call returns; `length` is that of the name. -/
def Ends (mem : Mem) (superblock length : UInt32) : Ext2Call → Prop
  | .inodeGet inode => NoZeroDivisor mem superblock inode
  | .inodeblockGet _ _ => True
  | .read offset buffer size inode => ReadEnds mem superblock offset buffer size inode
  | .direntryGet index inode => DirentryEnds mem superblock inode index
  | .finddir _ _ _ node _ => FinddirEnds mem superblock node length

end Ext2Call

/-- **Termination of the reader.**  On every memory, and so on every image, each call returns, with
no division by zero on the way, exactly when the divisors it uses are not 0 and the records it
follows lead to an end. -/
theorem ext2_returns_iff (mem : Mem) (superblock : UInt32) :
    (∀ (call : Ext2Call) (xs : List UInt8), call.NameIs mem xs →
      (Returns (fun n => call.prog superblock n) mem ↔
        call.Ends mem superblock (UInt32.ofNat xs.length))) ∧
    ∀ (entry node index : UInt32) (fresh : Buffer),
      Returns (fun n => ReadBy.initrdReaddir n entry fresh node index superblock) mem ↔
        NoZeroDivisor mem superblock (ReadBy.nodeInode mem node) ∧
          DirentryEnds mem superblock (inodeSlot mem superblock (ReadBy.nodeInode mem node))
            index := by
  refine ⟨fun call xs hname => ?_, fun entry node index fresh =>
    readdir_returns_iff entry node index fresh⟩
  cases call with
  | inodeGet inode =>
    simp only [Ext2Call.prog, Ext2Call.Ends]
    rw [returns_bind_total fun _ => Option.some_ne_none _, returns_const, inodeGet_val,
      inodeGet_ne_none]
  | inodeblockGet block inode =>
    simp only [Ext2Call.prog, Ext2Call.Ends]
    rw [returns_bind_total fun _ => Option.some_ne_none _, returns_const, inodeblockGet_val]
    exact iff_of_true (Option.some_ne_none _) trivial
  | read offset buffer size inode =>
    simp only [Ext2Call.prog, Ext2Call.Ends]
    rw [returns_bind_total fun _ => Option.some_ne_none _, read_returns_iff]
  | direntryGet index inode =>
    simp only [Ext2Call.prog, Ext2Call.Ends]
    rw [returns_bind_total fun _ => Option.some_ne_none _, direntry_returns_iff]
  | finddir code file fresh node name =>
    simp only [Ext2Call.prog, Ext2Call.Ends]
    rw [returns_bind_total fun _ => Option.some_ne_none _, finddir_returns_iff hname]

/-- The example image after mounting, with inode 2 a directory of one block that has two records, for a
name of two letters and one of one letter, a node for it, and the name "a". -/
def imageTwoRecords : Mem :=
  Function.update (write32 (write16 (write16 (write32 (write16 (write16 (write32 (write32 (write32
    (write16 (write16 image256 0x100458 128) 0x101480 0x4000) 0x101484 1024) 0x1014A8 10) 0x102800 2)
    0x102804 12) 0x102806 2) 0x10280C 3) 0x102810 1012) 0x102812 1) 0x200090 2) 0x300000 97

/-- On it the name is looked for, and found in the second record. -/
theorem ext2_returns_second :
    Returns (fun n => (Ext2Call.finddir ⟨0x101000, 0x101100, 0x101200⟩ 0x400000 (fun _ => 0) 0x200000
      0x300000).prog 0x100400 n) imageTwoRecords := by
  have hname : StringAt imageTwoRecords 0x300000 [97] := ⟨by decide, by decide, stringAt_nil.2 (by decide)⟩
  refine ((ext2_returns_iff imageTwoRecords 0x100400).1 (.finddir _ _ _ 0x200000 0x300000) [97] hname).2
    ⟨Or.inr ⟨by decide, by decide⟩, fun _ _ _ => ⟨fun j k hjk hsame => ?_, fun k hbefore hin hlen => ?_⟩⟩
  · by_cases hk : 1 < k
    · exact ⟨1, hk, Or.inr (by decide)⟩
    · obtain ⟨rfl, rfl⟩ : j = 0 ∧ k = 1 := by omega
      exact absurd hsame (by decide)
  · by_cases hk : 1 < k
    · exact absurd (Or.inr (by decide)) (hbefore 1 hk)
    · obtain rfl | rfl : k = 0 ∨ k = 1 := by omega
      · exact absurd hlen (by decide)
      · exact Or.inr ⟨by decide, by decide⟩

/-- The example image after mounting, with no inodes in a group. -/
def imageNoInodes : Mem := write32 (write16 image256 0x100458 128) 0x100428 0

/-- The example image after mounting, with inode 2 a directory of one block whose first record has
length 0, a node for it, and a name of one letter. -/
def imageZeroRecord : Mem :=
  Function.update (write32 (write32 (write32 (write16 (write16 image256 0x100458 128)
    0x101480 0x4000) 0x101484 1024) 0x1014A8 10) 0x200090 2) 0x300000 97

/-- **Two images that are accepted**: on one `ext2_inode_get` divides by 0, on the other
`initrd_finddir` goes round on the first record for ever. -/
theorem ext2_accepted_not_returning :
    (ext2SuperblockValidate imageNoInodes 0x100400 = true ∧
      ¬ Returns (fun n => (Ext2Call.inodeGet 2).prog 0x100400 n) imageNoInodes) ∧
    ∀ code file fresh, ext2SuperblockValidate imageZeroRecord 0x100400 = true ∧
      (Ext2Call.finddir code file fresh 0x200000 0x300000).NameIs imageZeroRecord [97] ∧
      ¬ Returns (fun n => (Ext2Call.finddir code file fresh 0x200000 0x300000).prog 0x100400 n)
        imageZeroRecord := by
  refine ⟨⟨by decide, ?_⟩, fun code file fresh => ?_⟩
  · simp only [Ext2Call.prog]
    rw [returns_bind_total fun _ => Option.some_ne_none _, returns_const, inodeGet_val,
      inodeGet_ne_none]
    rintro (h | ⟨h, _⟩)
    · exact absurd h (by decide)
    · exact absurd h (by decide)
  · have hname : StringAt imageZeroRecord 0x300000 [97] := ⟨by decide, by decide, stringAt_nil.2 (by decide)⟩
    refine ⟨by decide, hname, ?_⟩
    simp only [Ext2Call.prog]
    rw [returns_bind_total fun _ => Option.some_ne_none _, finddir_returns_iff hname]
    rintro ⟨_, h⟩
    obtain ⟨hback, _⟩ := h (by decide) (by decide) (by decide)
    obtain ⟨i, hi, hstop⟩ := hback 0 1 (by decide) (by decide)
    obtain rfl : i = 0 := by omega
    rcases hstop with hstop | hstop
    · exact hstop (by decide)
    · exact absurd hstop (by decide)

end CometOS
