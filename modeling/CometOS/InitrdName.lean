import CometOS.Ext2Finddir

/-!
# The name fields `initrd.c` fills in

`initrd_readdir` and `initrd_finddir` again, with each store through the name of the object they fill
in on record, wherever it goes: `memcpy` with the `name_len` of the record and a `NUL` behind, and
`strcpy`, which counts the bytes itself and stores no `NUL`.  The name is the first 128 bytes.
-/

namespace CometOS

open ByteMemory CString Reader Word32

/-- An object from `kmalloc`, and where has been stored through its name. -/
structure NamedObject where
  bytes : Buffer
  stores : List ℕ

namespace NamedObject

def fresh (bytes : Buffer) : NamedObject := ⟨bytes, []⟩

/-- `object->name[k] = c`. -/
def put (k : ℕ) (c : UInt8) (o : NamedObject) : NamedObject :=
  ⟨Function.update o.bytes k c, o.stores ++ [k]⟩

/-- A store to the field at `k`. -/
def field (k : ℕ) (v : UInt32) (o : NamedObject) : NamedObject :=
  { o with bytes := ReadBy.store32 o.bytes k v }

/-- `memcpy(&object->name, src, size)`. -/
def copy (mem : Mem) (src size : UInt32) (o : NamedObject) : NamedObject :=
  ⟨memcpyFrom mem src size o.bytes, o.stores ++ List.range size.toNat⟩

end NamedObject

namespace NameBy

open Prog

def memcpy (src size : UInt32) (o : NamedObject) : Prog NamedObject := fun mem =>
  (some (o.copy mem src size), [⟨src, size.toNat⟩])

def strcpy (o : NamedObject) (src : UInt32) : Prog NamedObject := do
  let size ← ReadBy.strlen src
  memcpy src size o

def initrdFound (code : ReadBy.InitrdCode) (file : UInt32) (fresh : Buffer) (ent superblock : UInt32) :
    Prog (UInt32 × NamedObject) := do
  let number ← load32 ent
  let inode ← ReadBy.ext2InodeGet number superblock
  let length ← ReadBy.strlen (ent + 8)
  if 128 < length then pure (0, .fresh fresh)
  else do
    let o ← strcpy (.fresh fresh) (ent + 8)
    let type ← load16 inode
    let o := o.field 128 (type.toUInt32 &&& 0xFFF)
    let uid ← load16 (inode + 2)
    let o := o.field 132 uid.toUInt32
    let gid ← load16 (inode + 24)
    let o := o.field 136 gid.toUInt32
    let number ← load32 ent
    let o := o.field 144 number
    let type ← ReadBy.ext2InodeTypetofile inode
    let o := o.field 140 (ReadBy.fetch32 o.bytes 140 ||| type)
    let size ← load32 (inode + 4)
    let o := o.field 148 size
    let o := o.field 156 code.read
    let o := o.field 160 0
    let o := o.field 164 0
    let o := o.field 168 0
    let o := o.field 172 code.readdir
    let o := o.field 176 code.finddir
    let o := o.field 180 0
    let o := o.field 152 0
    pure (file, o)

def initrdFinddir (n : ℕ) (code : ReadBy.InitrdCode) (file : UInt32) (fresh : Buffer)
    (node name superblock : UInt32) : Prog (UInt32 × NamedObject) := do
  let number ← peek fun mem => some (ReadBy.nodeInode mem node)
  let inode ← ReadBy.ext2InodeGet number superblock
  let block ← ReadBy.ext2InodeblockGet 0 inode superblock
  if node = 0 then pure (0, .fresh fresh)
  else do
    let type ← load16 inode
    if type &&& 0x4000 = 0 ∨ block = 0 then pure (0, .fresh fresh)
    else loop (finddirTurn (fun ent => initrdFound code file fresh ent superblock) (0, .fresh fresh)
      block inode name) n 0

/-- `initrd_readdir` has the entry. -/
def initrdEntry (entry : UInt32) (fresh : Buffer) (ent : UInt32) : Prog (UInt32 × NamedObject) := do
  let nameLen ← load16 (ent + 6)
  let o ← memcpy (ent + 8) nameLen.toUInt32 (.fresh fresh)
  let nameLen ← load16 (ent + 6)
  let o := o.put nameLen.toNat 0
  let number ← load32 ent
  pure (entry, o.field 128 number)

def initrdReaddir (n : ℕ) (entry : UInt32) (fresh : Buffer) (node index superblock : UInt32) :
    Prog (UInt32 × NamedObject) := do
  let number ← peek fun mem => some (ReadBy.nodeInode mem node)
  let inode ← ReadBy.ext2InodeGet number superblock
  let ent ← ReadBy.ext2DirentryGet n index inode superblock
  if inode = 0 ∨ ent = 0 then pure (0, .fresh fresh) else initrdEntry entry fresh ent

end NameBy

/-- What is returned, without the record. -/
def NamedObject.forget (r : UInt32 × NamedObject) : UInt32 × Buffer := (r.1, r.2.bytes)

section Values

variable {mem : Mem} {code : ReadBy.InitrdCode} {file entry node name ent superblock index : UInt32}
  {fresh : Buffer} {xs ys : List UInt8}

theorem named_memcpy_val (src size : UInt32) (o : NamedObject) :
    (NameBy.memcpy src size o mem).1 = some (o.copy mem src size) := rfl

/-- The record changes nothing: an entry is filled in as without it. -/
theorem named_readdir (n : ℕ) :
    (NameBy.initrdReaddir n entry fresh node index superblock mem).1.map NamedObject.forget =
      (ReadBy.initrdReaddir n entry fresh node index superblock mem).1 := by
  unfold NameBy.initrdReaddir ReadBy.initrdReaddir
  simp only [bind_val, peek_val, Option.bind_some, inodeGet_val]
  cases ext2InodeGet mem (ReadBy.nodeInode mem node) superblock with
  | none => rfl
  | some inode =>
    simp only [Option.bind_some]
    cases (ReadBy.ext2DirentryGet n index inode superblock mem).1 with
    | none => rfl
    | some ent =>
      simp only [Option.bind_some, ite_val]
      split
      · rfl
      · rfl

theorem named_found :
    (NameBy.initrdFound code file fresh ent superblock mem).1.map NamedObject.forget =
      (ReadBy.initrdFound code file fresh ent superblock mem).1 := by
  unfold NameBy.initrdFound ReadBy.initrdFound
  simp only [bind_val, load32_val, Option.bind_some, inodeGet_val]
  cases ext2InodeGet mem (read32 mem ent) superblock with
  | none => rfl
  | some inode =>
    simp only [Option.bind_some, NameBy.strcpy, ReadBy.strcpy]
    cases hlen : (ReadBy.strlen (ent + 8) mem).1 with
    | none => rfl
    | some length =>
      simp only [Option.bind_some, ite_val]
      split
      · rfl
      · simp only [bind_val, hlen, Option.bind_some]
        rfl

/-- And so is a file, at the end of the same walk. -/
theorem named_finddir (hname : StringAt mem name xs) (n : ℕ) :
    (NameBy.initrdFinddir n code file fresh node name superblock mem).1.map NamedObject.forget =
      (ReadBy.initrdFinddir n code file fresh node name superblock mem).1 := by
  unfold NameBy.initrdFinddir ReadBy.initrdFinddir
  simp only [bind_val, peek_val, Option.bind_some, inodeGet_val]
  cases ext2InodeGet mem (ReadBy.nodeInode mem node) superblock with
  | none => rfl
  | some inode =>
    simp only [Option.bind_some, inodeblockGet_val, ite_val, bind_val, load16_val]
    split
    · rfl
    · split
      · rfl
      · refine (finddirStep_turn hname _ inode).val_map (finddirTurn_turn _ _ hname _ inode)
          NamedObject.forget (fun i => ?_) n 0
        unfold finddirEnd
        split
        · exact named_found
        · rfl

/-! ### What becomes of the name -/

/-- Every store through the name goes to its 128 bytes, and if an object is returned one of them
is 0. -/
def NameKept (r : UInt32 × NamedObject) : Prop :=
  (∀ k ∈ r.2.stores, k < 128) ∧ (r.1 = 0 ∨ ∃ k < 128, r.2.bytes k = 0)

theorem nameKept_null (fresh : Buffer) : NameKept (0, .fresh fresh) :=
  ⟨fun _ hk => absurd hk List.not_mem_nil, Or.inl rfl⟩

/-- `initrd_readdir` stores a `NUL` behind the name, wherever that is. -/
theorem initrdEntry_kept_iff {r : UInt32 × NamedObject}
    (hr : (NameBy.initrdEntry entry fresh ent mem).1 = some r) :
    NameKept r ↔ (nameLen mem ent).toNat ≤ 127 := by
  have hlen : (nameLen mem ent).toUInt32.toNat = (nameLen mem ent).toNat := UInt16.toNat_toUInt32 _
  obtain rfl := Option.some.inj hr
  constructor
  · rintro ⟨hstores, _⟩
    have hlast : (nameLen mem ent).toNat ∈
        ([] ++ List.range (nameLen mem ent).toUInt32.toNat) ++ [(nameLen mem ent).toNat] := by simp
    have := hstores _ hlast
    omega
  · intro hle
    refine ⟨fun k hk => ?_, Or.inr ⟨(nameLen mem ent).toNat, by omega, ?_⟩⟩
    · have hk' : k ∈
          ([] ++ List.range (nameLen mem ent).toUInt32.toNat) ++ [(nameLen mem ent).toNat] := hk
      simp only [List.nil_append, List.mem_append, List.mem_range, List.mem_singleton] at hk'
      omega
    · show ReadBy.store32 (Function.update _ (nameLen mem ent).toNat 0) 128 _ _ = 0
      rw [store32_byte _ (by omega), Function.update_self]

/-- The string at the entry's name is too long to be taken, or the object has held a 0 behind it. -/
def NameEnds (mem : Mem) (fresh : Buffer) (ent : UInt32) : Prop :=
  ∃ ys, StringAt mem (ent + 8) ys ∧ (128 < ys.length ∨ ∃ j, ys.length ≤ j ∧ j < 128 ∧ fresh j = 0)

/-- `initrd_finddir` has at most 128 bytes to copy, none of them 0. -/
theorem initrdFound_kept_iff (hent : StringAt mem (ent + 8) ys) {r : UInt32 × NamedObject}
    (hr : (NameBy.initrdFound code file fresh ent superblock mem).1 = some r) :
    NameKept r ↔ file = 0 ∨ NameEnds mem fresh ent := by
  have hlt := hent.length_lt
  have hlen : (128 : UInt32) < UInt32.ofNat ys.length ↔ 128 < ys.length := hent.lt_length 128
  have hends : NameEnds mem fresh ent ↔
      128 < ys.length ∨ ∃ j, ys.length ≤ j ∧ j < 128 ∧ fresh j = 0 := by
    constructor
    · rintro ⟨ys', hys', h⟩
      rwa [hent.unique hys']
    · intro h
      exact ⟨ys, hent, h⟩
  obtain ⟨inode, hinode⟩ : ∃ inode, ext2InodeGet mem (read32 mem ent) superblock = some inode := by
    refine Option.ne_none_iff_exists'.1 fun hnone => ?_
    rw [NameBy.initrdFound, bind_val, load32_val, Option.bind_some, bind_val, inodeGet_val,
      hnone] at hr
    cases hr
  simp only [NameBy.initrdFound, NameBy.strcpy, bind_val, load16_val, load32_val, inodeGet_val,
    hinode, strlen_val hent, named_memcpy_val, inodeTypetofile_val, pure_val, Option.bind_some,
    ite_val] at hr
  rw [hends]
  by_cases hlong : 128 < ys.length
  · rw [if_pos (hlen.2 hlong)] at hr
    obtain rfl := Option.some.inj hr
    exact iff_of_true (nameKept_null fresh) (Or.inr (Or.inl hlong))
  · rw [if_neg fun h => hlong (hlen.1 h)] at hr
    obtain rfl := Option.some.inj hr
    have hstores : ∀ k ∈ [] ++ List.range (UInt32.ofNat ys.length).toNat, k < 128 := by
      intro k hk
      rw [List.nil_append, toNat_ofNat_of_lt hlt, List.mem_range] at hk
      omega
    refine (and_iff_right hstores).trans (or_congr_right ?_)
    rw [or_iff_right hlong]
    refine exists_congr fun k => ?_
    by_cases hk : k < 128
    · simp only [NamedObject.field, NamedObject.copy, NamedObject.fresh]
      simp (disch := omega) only [store32_byte, memcpyFrom_apply, toNat_ofNat_of_lt hlt, hk, true_and]
      by_cases hin : k < ys.length
      · rw [if_pos hin, (hent.byte hin).1]
        exact iff_of_false (hent.byte hin).2 fun h => by omega
      · rw [if_neg hin]
        exact (and_iff_right (by omega)).symm
    · exact iff_of_false (fun h => hk h.1) fun h => hk h.2.1

end Values

/-! ### Over whole calls -/

/-- `initrd_readdir` comes to this record. -/
def ReaddirTakes (mem : Mem) (superblock node index ent : UInt32) : Prop :=
  ∃ inode, ext2InodeGet mem (ReadBy.nodeInode mem node) superblock = some inode ∧ inode ≠ 0 ∧
    Yields (fun n => ReadBy.ext2DirentryGet n index inode superblock) mem ent ∧ ent ≠ 0

/-- `initrd_finddir`, looking for a name of this length, comes to this record, and its inode number
can be looked for. -/
def FinddirTakes (mem : Mem) (base node length ent : UInt32) : Prop :=
  NoZeroDivisor mem (base + 1024) (ReadBy.nodeInode mem node) ∧ WalkStarts mem base node ∧
    ∃ index, ComesTo mem base node length index ∧ index < Inode.size mem (dirSlot mem base node) ∧
      ent = dirBlock mem base node + index ∧ NoZeroDivisor mem (base + 1024) (read32 mem ent)

section Calls

variable {mem : Mem} {code : ReadBy.InitrdCode} {file entry node name ent base superblock index : UInt32}
  {fresh : Buffer} {xs : List UInt8} {r : UInt32 × NamedObject}

theorem named_readdir_yields :
    Yields (fun n => NameBy.initrdReaddir n entry fresh node index superblock) mem r ↔
      ∃ inode, ext2InodeGet mem (ReadBy.nodeInode mem node) superblock = some inode ∧
        ∃ ent, Yields (fun n => ReadBy.ext2DirentryGet n index inode superblock) mem ent ∧
          ((if inode = 0 ∨ ent = 0 then pure (0, .fresh fresh)
            else NameBy.initrdEntry entry fresh ent : Prog (UInt32 × NamedObject)) mem).1 = some r := by
  unfold NameBy.initrdReaddir
  rw [yields_bind_of (a := ReadBy.nodeInode mem node) rfl]
  cases hinode : ext2InodeGet mem (ReadBy.nodeInode mem node) superblock with
  | none =>
    refine iff_of_false (not_yields_bind (by rw [inodeGet_val, hinode])) ?_
    rintro ⟨inode, h, _⟩
    cases h
  | some inode =>
    rw [yields_bind_of (by rw [inodeGet_val, hinode]), yields_bind]
    constructor
    · rintro ⟨ent, hent, hr⟩
      exact ⟨inode, rfl, ent, hent, hr⟩
    · rintro ⟨inode', h, ent, hent, hr⟩
      obtain rfl := Option.some.inj h
      exact ⟨ent, hent, hr⟩

theorem readdir_kept_iff :
    (∀ r, Yields (fun n => NameBy.initrdReaddir n entry fresh node index superblock) mem r →
        NameKept r) ↔
      ∀ ent, ReaddirTakes mem superblock node index ent → (nameLen mem ent).toNat ≤ 127 := by
  simp only [named_readdir_yields]
  constructor
  · rintro hkept ent ⟨inode, hinode, hne, hent, hne'⟩
    have hval : (NameBy.initrdEntry entry fresh ent mem).1 = some _ := rfl
    refine (initrdEntry_kept_iff hval).1 (hkept _ ⟨inode, hinode, ent, hent, ?_⟩)
    rw [if_neg (not_or.2 ⟨hne, hne'⟩), hval]
  · rintro hshort r ⟨inode, hinode, ent, hent, hr⟩
    by_cases hnull : inode = 0 ∨ ent = 0
    · rw [if_pos hnull] at hr
      obtain rfl := Option.some.inj hr
      exact nameKept_null fresh
    · rw [if_neg hnull] at hr
      obtain ⟨hne, hne'⟩ := not_or.1 hnull
      exact (initrdEntry_kept_iff hr).2 (hshort ent ⟨inode, hinode, hne, hent, hne'⟩)

theorem named_finddir_yields (hdiv : NoZeroDivisor mem (base + 1024) (ReadBy.nodeInode mem node))
    (hname : StringAt mem name xs) :
    Yields (fun n => NameBy.initrdFinddir n code file fresh node name (base + 1024)) mem r ↔
      (¬ WalkStarts mem base node ∧ r = (0, .fresh fresh)) ∨
      (WalkStarts mem base node ∧ ∃ i, ComesTo mem base node (UInt32.ofNat xs.length) i ∧
        (if i < Inode.size mem (dirSlot mem base node) then
            (NameBy.initrdFound code file fresh (dirBlock mem base node + i) (base + 1024) mem).1
          else some (0, .fresh fresh)) = some r) := by
  unfold NameBy.initrdFinddir
  rw [yields_bind_of (a := ReadBy.nodeInode mem node) rfl,
    yields_bind_of (by rw [inodeGet_val, inodeGet_of_noZeroDivisor hdiv]),
    yields_bind_of (inodeblockGet_val _ _ _)]
  by_cases hnode : node = 0
  · simp only [if_pos hnode]
    rw [yields_const, pure_val, Option.some_inj, eq_comm]
    constructor
    · intro h
      exact Or.inl ⟨fun hstart => hstart.1 hnode, h⟩
    · rintro (⟨_, h⟩ | ⟨hstart, _⟩)
      · exact h
      · exact absurd hnode hstart.1
  · simp only [if_neg hnode]
    rw [yields_bind_of (load16_val _)]
    by_cases hdir : read16 mem (dirSlot mem base node) &&& 0x4000 = 0 ∨ dirBlock mem base node = 0
    · have hstart : ¬ WalkStarts mem base node := fun h => hdir.elim h.2.1 h.2.2
      have hdir' := hdir
      simp only [dirSlot, dirBlock] at hdir'
      simp only [if_pos hdir', hstart, not_false_eq_true, true_and, false_and, or_false]
      rw [yields_const, pure_val, Option.some_inj, eq_comm]
    · have hstart : WalkStarts mem base node := ⟨hnode, not_or.1 hdir⟩
      have hdir' := hdir
      simp only [dirSlot, dirBlock] at hdir'
      simp only [if_neg hdir', hstart, not_true_eq_false, true_and, false_and, false_or]
      rw [(finddirTurn_turn _ _ hname _ _).yields_iff]
      constructor
      · rintro ⟨k, hbefore, hstop, hr⟩
        exact ⟨_, ⟨k, rfl, hbefore, hstop⟩, hr⟩
      · rintro ⟨i, ⟨k, rfl, hbefore, hstop⟩, hr⟩
        exact ⟨k, hbefore, hstop, hr⟩

theorem finddir_kept_iff (hname : StringAt mem name xs) :
    (∀ r, Yields (fun n => NameBy.initrdFinddir n code file fresh node name (base + 1024)) mem r →
        NameKept r) ↔
      ∀ ent, FinddirTakes mem base node (UInt32.ofNat xs.length) ent →
        file = 0 ∨ NameEnds mem fresh ent := by
  by_cases hdiv : NoZeroDivisor mem (base + 1024) (ReadBy.nodeInode mem node)
  · simp only [named_finddir_yields hdiv hname]
    constructor
    · rintro hkept ent ⟨_, hstart, i, hto, hin, rfl, hnum⟩
      obtain ⟨ys, hys⟩ := exists_stringAt hname.terminator (dirBlock mem base node + i + 8)
      obtain ⟨r, hr⟩ : ∃ r, (NameBy.initrdFound code file fresh (dirBlock mem base node + i)
          (base + 1024) mem).1 = some r := by
        refine Option.ne_none_iff_exists'.1 fun hnone => ?_
        have hfound : (ReadBy.initrdFound code file fresh (dirBlock mem base node + i)
            (base + 1024) mem).1 ≠ none := (found_ne_none hys).2 hnum
        rw [← named_found, hnone] at hfound
        exact hfound rfl
      refine (initrdFound_kept_iff hys hr).1 (hkept r (Or.inr ⟨hstart, i, hto, ?_⟩))
      rw [if_pos hin, hr]
    · rintro hends r (⟨_, rfl⟩ | ⟨hstart, i, hto, hr⟩)
      · exact nameKept_null fresh
      · by_cases hin : i < Inode.size mem (dirSlot mem base node)
        · rw [if_pos hin] at hr
          obtain ⟨ys, hys⟩ := exists_stringAt hname.terminator (dirBlock mem base node + i + 8)
          have hnum : NoZeroDivisor mem (base + 1024) (read32 mem (dirBlock mem base node + i)) := by
            have hfound : (ReadBy.initrdFound code file fresh (dirBlock mem base node + i)
                (base + 1024) mem).1 ≠ none := by
              rw [← named_found, hr]
              exact Option.some_ne_none _
            exact (found_ne_none hys).1 hfound
          exact (initrdFound_kept_iff hys hr).2 (hends _ ⟨hdiv, hstart, i, hto, hin, rfl, hnum⟩)
        · rw [if_neg hin] at hr
          obtain rfl := Option.some.inj hr
          exact nameKept_null fresh
  · refine iff_of_true (fun r hr => ?_) fun ent hent => absurd hent.1 hdiv
    unfold NameBy.initrdFinddir at hr
    rw [yields_bind_of (a := ReadBy.nodeInode mem node) rfl] at hr
    exact absurd hr (not_yields_bind (by rw [inodeGet_val, inodeGet_eq_none hdiv]))

end Calls

/-- **The name fields.**  On every memory, and so for every record an image can contain: what
`initrd_readdir` stores through the name stays inside it, and ends there, exactly if the `name_len`
of the record it comes to is at most 127; for `initrd_finddir` it is exactly if the record's string
is too long to be taken, or the object has held a 0 behind it inside the name, or there is no object
and `NULL` is returned. -/
theorem initrd_name_iff (mem : Mem) (base node : UInt32) :
    (∀ (entry index : UInt32) (fresh : Buffer),
      (∀ r, Yields (fun n => NameBy.initrdReaddir n entry fresh node index (base + 1024)) mem r →
          NameKept r) ↔
        ∀ ent, ReaddirTakes mem (base + 1024) node index ent → (nameLen mem ent).toNat ≤ 127) ∧
    ∀ (code : ReadBy.InitrdCode) (file name : UInt32) (fresh : Buffer) (xs : List UInt8),
      StringAt mem name xs →
      ((∀ r, Yields (fun n => NameBy.initrdFinddir n code file fresh node name (base + 1024)) mem r →
          NameKept r) ↔
        ∀ ent, FinddirTakes mem base node (UInt32.ofNat xs.length) ent →
          file = 0 ∨ NameEnds mem fresh ent) :=
  ⟨fun _ _ _ => readdir_kept_iff, fun _ _ _ _ _ hname => finddir_kept_iff hname⟩

theorem initrd_name_a :
    (∀ r, Yields (fun n => NameBy.initrdFinddir n ⟨1, 2, 3⟩ 0x300000 (fun _ => 0) 0x200100 0x200010
        (0x100000 + 1024)) (mounted imageNames 0x100000) r → NameKept r) ↔
      ∀ ent, FinddirTakes (mounted imageNames 0x100000) 0x100000 0x200100 (UInt32.ofNat 1) ent →
        (0x300000 : UInt32) = 0 ∨ NameEnds (mounted imageNames 0x100000) (fun _ => 0) ent :=
  (initrd_name_iff (mounted imageNames 0x100000) 0x100000 0x200100).2 ⟨1, 2, 3⟩ 0x300000 0x200010
    (fun _ => 0) [97] (stringAt_single.2 (by decide))

/-- The record of `imageNames` with a `name_len` of 200. -/
def imageLongName : Mem := write16 (mounted imageNames 0x100000) 0x102806 200

/-- `initrd_readdir` stores 200 bytes and a `NUL` from the name on. -/
theorem readdir_longName :
    ¬ ∀ r, Yields (fun n => NameBy.initrdReaddir n 0x300000 (fun _ => 0) 0x200100 0
      (0x100000 + 1024)) imageLongName r → NameKept r := by
  rw [readdir_kept_iff]
  intro h
  have hent : Yields (fun n => ReadBy.ext2DirentryGet n 0 0x101400 (0x100000 + 1024)) imageLongName
      0x102800 := ⟨1, by decide⟩
  have hshort := h 0x102800 ⟨0x101400, by decide, by decide, hent, by decide⟩
  exact absurd hshort (by decide)

end CometOS
