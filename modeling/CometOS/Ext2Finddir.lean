import CometOS.Ext2Directory

/-!
# Finding a name

`initrd_finddir` against the names of a directory.  `strcmp` answers 0 for all strings, so that the
first record of the right length is taken, used or not; the records are those that follow one
another from the first block on, wherever that leads; a name is copied up to the next zero byte, and
without one; and the file's type is added to what the object held before.
-/

namespace CometOS

open ByteMemory CString Reader Word32

/-! ### Names and files -/

/-- The name of an entry. -/
def entryName (mem : Mem) (ent : UInt32) : List UInt8 :=
  (List.range (nameLen mem ent).toNat).map fun i => mem (ent + 8 + UInt32.ofNat i)

/-- The entry is used, and has the name. -/
def Names (mem : Mem) (xs : List UInt8) (ent : UInt32) : Prop :=
  read32 mem ent ≠ 0 ∧ entryName mem ent = xs

/-- The file type for the format of an inode: `FS_FILE` and so on, and 0 for what has none. -/
def fileType (type : UInt16) : UInt32 :=
  if type &&& 0xF000 = 0xA000 then 6
  else if type &&& 0xF000 = 0x8000 then 1
  else if type &&& 0xF000 = 0x6000 then 4
  else if type &&& 0xF000 = 0x4000 then 2
  else if type &&& 0xF000 = 0x2000 then 3
  else if type &&& 0xF000 = 0x1000 then 5
  else 0

/-- What a file has of its inode, but for the type. -/
structure FileFields where
  mask : UInt32
  uid : UInt32
  gid : UInt32
  size : UInt32

/-- The fields in the inode. -/
def inodeFields (mem : Mem) (inode : UInt32) : FileFields where
  mask := (read16 mem inode).toUInt32 &&& 0xFFF
  uid := (read16 mem (inode + 2)).toUInt32
  gid := (read16 mem (inode + 24)).toUInt32
  size := read32 mem (inode + 4)

/-- The fields in a `file_t`. -/
def fileFields (b : Buffer) : FileFields where
  mask := ReadBy.fetch32 b 128
  uid := ReadBy.fetch32 b 132
  gid := ReadBy.fetch32 b 136
  size := ReadBy.fetch32 b 148

/-- The name of a `file_t`, an array of 128 characters, holds the string. -/
def NameHolds (b : Buffer) (xs : List UInt8) : Prop :=
  xs.length < 128 ∧ (∀ i, ∀ h : i < xs.length, b i = xs[i]) ∧ b xs.length = 0

/-- The object is the file of inode `number`, which the format puts at `inode`, under the name. -/
structure FileOf (mem : Mem) (number inode : UInt32) (xs : List UInt8) (b : Buffer) : Prop where
  name : NameHolds b xs
  number : ReadBy.fetch32 b 144 = number
  fields : fileFields b = inodeFields mem inode
  type : ReadBy.fetch32 b 140 = fileType (read16 mem inode)

/-! ### The object -/

section Object

variable {b : Buffer} {k j : ℕ}

theorem store32_byte (v : UInt32) {x : ℕ} (h : x < k ∨ k + 4 ≤ x) :
    ReadBy.store32 b k v x = b x := by
  rw [ReadBy.store32, if_neg (by omega)]

theorem fetch32_store32_of_apart (v : UInt32) (h : k + 4 ≤ j ∨ j + 4 ≤ k) :
    ReadBy.fetch32 (ReadBy.store32 b k v) j = ReadBy.fetch32 b j := by
  rw [ReadBy.fetch32, ReadBy.fetch32, store32_byte v (by omega), store32_byte v (by omega),
    store32_byte v (by omega), store32_byte v (by omega)]

theorem fetch32_store32 (v : UInt32) : ReadBy.fetch32 (ReadBy.store32 b k v) k = v := by
  have hbyte : ∀ i < 4, ReadBy.store32 b k v (k + i) = UInt8.ofNat (v.toNat / 0x100 ^ i) := by
    intro i hi
    rw [ReadBy.store32, if_pos (by omega), Nat.add_sub_cancel_left]
  have h0 := hbyte 0 (by decide)
  have hv := v.toNat_lt
  rw [ReadBy.fetch32, hbyte 1 (by decide), hbyte 2 (by decide), hbyte 3 (by decide)]
  rw [Nat.add_zero] at h0
  rw [h0]
  apply eq_of_toNat
  simp only [UInt8.toNat_ofNat', UInt32.toNat_ofNat']
  omega

end Object

section Found

variable {mem : Mem} {superblock ent : UInt32} {fresh : Buffer} {ys : List UInt8}

/-- The object that is made for an entry. -/
structure MadeFrom (mem : Mem) (superblock ent : UInt32) (fresh : Buffer) (length : ℕ) (b : Buffer) :
    Prop where
  name : ∀ x < 128, b x = memcpyFrom mem (ent + 8) (UInt32.ofNat length) fresh x
  number : ReadBy.fetch32 b 144 = read32 mem ent
  fields : fileFields b = inodeFields mem (inodeSlot mem superblock (read32 mem ent))
  type : ReadBy.fetch32 b 140 = ReadBy.fetch32 fresh 140 |||
    ReadBy.typetofile (read16 mem (inodeSlot mem superblock (read32 mem ent)))

theorem found_val (code : ReadBy.InitrdCode) (file : UInt32) (fresh : Buffer)
    (hent : StringAt mem (ent + 8) ys)
    (hdiv : NoZeroDivisor mem superblock (read32 mem ent)) :
    (128 < ys.length ∧
        (ReadBy.initrdFound code file fresh ent superblock mem).1 = some (0, fresh)) ∨
      (ys.length ≤ 128 ∧ ∃ b,
        (ReadBy.initrdFound code file fresh ent superblock mem).1 = some (file, b) ∧
          MadeFrom mem superblock ent fresh ys.length b) := by
  have hlt := hent.length_lt
  have hlen : (128 : UInt32) < UInt32.ofNat ys.length ↔ 128 < ys.length := hent.lt_length 128
  simp only [ReadBy.initrdFound, ReadBy.strcpy, bind_val, load16_val, load32_val, inodeGet_val,
    strlen_val hent, memcpyFrom_val, inodeTypetofile_val, pure_val, Option.bind_some, ite_val,
    inodeGet_of_noZeroDivisor hdiv]
  by_cases hlong : 128 < ys.length
  · left
    rw [if_pos (hlen.2 hlong)]
    exact ⟨hlong, rfl⟩
  · right
    rw [if_neg fun h => hlong (hlen.1 h)]
    refine ⟨by omega, _, rfl, ⟨fun x hx => ?_, ?_, ?_, ?_⟩⟩
    · simp (disch := omega) only [store32_byte]
    · simp (disch := omega) only [fetch32_store32_of_apart, fetch32_store32]
    · simp (disch := omega) only [fileFields, inodeFields, fetch32_store32_of_apart,
        fetch32_store32]
    · have hkeep : ReadBy.fetch32 (memcpyFrom mem (ent + 8) (UInt32.ofNat ys.length) fresh) 140 =
          ReadBy.fetch32 fresh 140 := by
        have hcopy : (UInt32.ofNat ys.length).toNat ≤ 128 := by
          rw [toNat_ofNat_of_lt hlt]
          omega
        simp (disch := omega) only [ReadBy.fetch32, memcpyFrom_of_le]
      simp (disch := omega) only [fetch32_store32_of_apart, fetch32_store32, hkeep]

/-- The string that lies at an entry's name is the name looked for; or it is the start of it, and the
object happened to hold the rest.  In either case the object has held a 0 there behind the name. -/
structure NameCopied (mem : Mem) (ent : UInt32) (fresh : Buffer) (xs ys : List UInt8) : Prop where
  string : StringAt mem (ent + 8) ys
  fits : xs.length < 128
  start : ys <+: xs
  rest : ∀ i, ys.length ≤ i → ∀ h : i < xs.length, fresh i = xs[i]
  ends : fresh xs.length = 0

theorem nameHolds_iff {b : Buffer} {xs : List UInt8} (hent : StringAt mem (ent + 8) ys)
    (hb : ∀ x < 128, b x = memcpyFrom mem (ent + 8) (UInt32.ofNat ys.length) fresh x) :
    NameHolds b xs ↔ NameCopied mem ent fresh xs ys := by
  have hbyte : ∀ x < 128, ∀ h : x < ys.length, b x = ys[x] := by
    intro x hx h
    rw [hb x hx, memcpyFrom_apply, toNat_ofNat_of_lt hent.length_lt, if_pos h]
    exact (hent.byte h).1
  have hfresh : ∀ x < 128, ys.length ≤ x → b x = fresh x := by
    intro x hx h
    rw [hb x hx, memcpyFrom_apply, toNat_ofNat_of_lt hent.length_lt, if_neg (by omega)]
  constructor
  · rintro ⟨hfits, hname, hend⟩
    have hle : ys.length ≤ xs.length := by
      by_contra hlong
      rw [hbyte xs.length hfits (by omega)] at hend
      exact (hent.byte (by omega)).2 hend
    refine ⟨hent, hfits, ?_, fun i hi h => ?_, ?_⟩
    · rw [List.prefix_iff_eq_take]
      refine List.ext_getElem (by rw [List.length_take]; omega) fun i h1 h2 => ?_
      rw [List.getElem_take, ← hbyte i (by omega) h1]
      exact hname i (by omega)
    · rw [← hfresh i (by omega) hi]
      exact hname i h
    · rw [← hfresh xs.length hfits hle]
      exact hend
  · intro h
    have hle := h.start.length_le
    refine ⟨h.fits, fun i hi => ?_, ?_⟩
    · rcases Nat.lt_or_ge i ys.length with hlt | hge
      · rw [hbyte i (by have := h.fits; omega) hlt]
        exact h.start.getElem hlt
      · rw [hfresh i (by have := h.fits; omega) hge]
        exact h.rest i hge hi
    · rw [hfresh xs.length h.fits hle]
      exact h.ends

end Found

/-! ### The walk -/

/-- The inode that a node is taken to have. -/
def dirSlot (mem : Mem) (base node : UInt32) : UInt32 :=
  inodeSlot mem (base + 1024) (ReadBy.nodeInode mem node)

/-- Its first block. -/
def dirBlock (mem : Mem) (base node : UInt32) : UInt32 :=
  ext2InodeblockGet mem 0 (dirSlot mem base node) (base + 1024)

/-- The node is there, is a directory and has a first block. -/
def WalkStarts (mem : Mem) (base node : UInt32) : Prop :=
  node ≠ 0 ∧ read16 mem (dirSlot mem base node) &&& 0x4000 ≠ 0 ∧ dirBlock mem base node ≠ 0

/-- The walk over the records comes to its end at this offset from the first block. -/
def ComesTo (mem : Mem) (base node length index : UInt32) : Prop :=
  ∃ k, recordAt mem (dirBlock mem base node) k = index ∧
    (∀ j < k, ¬ WalkStops mem (dirBlock mem base node) (Inode.size mem (dirSlot mem base node)) length
      (recordAt mem (dirBlock mem base node) j)) ∧
    WalkStops mem (dirBlock mem base node) (Inode.size mem (dirSlot mem base node)) length index

theorem ComesTo.unique {mem : Mem} {base node length i j : UInt32}
    (hi : ComesTo mem base node length i) (hj : ComesTo mem base node length j) : i = j := by
  obtain ⟨k, rfl, hbefore, hstop⟩ := hi
  obtain ⟨k', rfl, hbefore', hstop'⟩ := hj
  rcases Nat.lt_trichotomy k k' with hlt | rfl | hgt
  · exact absurd hstop (hbefore' k hlt)
  · rfl
  · exact absurd hstop' (hbefore k' hgt)

section Walk

variable {mem : Mem} {base node name file : UInt32} {code : ReadBy.InitrdCode} {fresh : Buffer}
  {xs : List UInt8}

/-- With enough turns `initrd_finddir` returns this. -/
def FinddirGives (mem : Mem) (code : ReadBy.InitrdCode) (file : UInt32) (fresh : Buffer)
    (node name base : UInt32) (r : UInt32 × Buffer) : Prop :=
  ∃ turns, ∀ n, turns ≤ n →
    (ReadBy.initrdFinddir n code file fresh node name (base + 1024) mem).1 = some r

theorem FinddirGives.unique {r r' : UInt32 × Buffer}
    (h : FinddirGives mem code file fresh node name base r)
    (h' : FinddirGives mem code file fresh node name base r') : r = r' := by
  obtain ⟨turns, hval⟩ := h
  obtain ⟨turns', hval'⟩ := h'
  exact Option.some.inj ((hval _ (Nat.le_max_left turns turns')).symm.trans
    (hval' _ (Nat.le_max_right turns turns')))

/-- The value, with the walk as a loop. -/
theorem finddir_val (hdiv : NoZeroDivisor mem (base + 1024) (ReadBy.nodeInode mem node)) (n : ℕ) :
    (ReadBy.initrdFinddir n code file fresh node name (base + 1024) mem).1 =
      if node = 0 then some (0, fresh)
      else if read16 mem (dirSlot mem base node) &&& 0x4000 = 0 ∨ dirBlock mem base node = 0 then
        some (0, fresh)
      else (Prog.loop (ReadBy.initrdFinddirStep code file fresh (dirBlock mem base node)
        (dirSlot mem base node) name (base + 1024)) n 0 mem).1 := by
  simp only [ReadBy.initrdFinddir, bind_val, peek_val, inodeGet_val, inodeGet_of_noZeroDivisor hdiv,
    inodeblockGet_val, Option.bind_some, ite_val, load16_val, pure_val]
  rfl

theorem finddir_no_walk (hdiv : NoZeroDivisor mem (base + 1024) (ReadBy.nodeInode mem node))
    (h : ¬ WalkStarts mem base node) :
    FinddirGives mem code file fresh node name base (0, fresh) := by
  refine ⟨0, fun n _ => ?_⟩
  rw [finddir_val hdiv]
  by_cases hnode : node = 0
  · rw [if_pos hnode]
  · rw [if_neg hnode, if_pos]
    by_contra hdir
    obtain ⟨htype, hblock⟩ := not_or.1 hdir
    exact h ⟨hnode, htype, hblock⟩

theorem finddir_walk_val (hdiv : NoZeroDivisor mem (base + 1024) (ReadBy.nodeInode mem node))
    (h : WalkStarts mem base node) (n : ℕ) :
    (ReadBy.initrdFinddir n code file fresh node name (base + 1024) mem).1 =
      (Prog.loop (ReadBy.initrdFinddirStep code file fresh (dirBlock mem base node)
        (dirSlot mem base node) name (base + 1024)) n 0 mem).1 := by
  rw [finddir_val hdiv, if_neg h.1, if_neg (not_or.2 h.2)]

/-- **Where the walk ends** decides. -/
theorem finddir_walk (hdiv : NoZeroDivisor mem (base + 1024) (ReadBy.nodeInode mem node))
    (hname : StringAt mem name xs) (h : WalkStarts mem base node) {index : UInt32}
    (hto : ComesTo mem base node (UInt32.ofNat xs.length) index) {r : UInt32 × Buffer}
    (hr : finddirEnd mem code file fresh (dirBlock mem base node)
      (Inode.size mem (dirSlot mem base node)) (base + 1024) index = some r) :
    FinddirGives mem code file fresh node name base r := by
  obtain ⟨k, rfl, hbefore, hstop⟩ := hto
  refine ⟨k + 1, fun n hn => ?_⟩
  have hturn : Turn (ReadBy.initrdFinddirStep code file fresh (dirBlock mem base node)
      (dirSlot mem base node) name (base + 1024)) mem _ _ _ :=
    finddirStep_turn hname (dirBlock mem base node) (dirSlot mem base node)
  rw [finddir_walk_val hdiv h, hturn.val_of_first k 0 hbefore hstop n hn]
  exact hr

/-- A walk that does not come to an end is never left. -/
theorem finddir_endless (hdiv : NoZeroDivisor mem (base + 1024) (ReadBy.nodeInode mem node))
    (hname : StringAt mem name xs) (h : WalkStarts mem base node)
    (hnever : ¬ ∃ index, ComesTo mem base node (UInt32.ofNat xs.length) index)
    (r : UInt32 × Buffer) : ¬ FinddirGives mem code file fresh node name base r := by
  classical
  rintro ⟨turns, hval⟩
  have hturn : Turn (ReadBy.initrdFinddirStep code file fresh (dirBlock mem base node)
      (dirSlot mem base node) name (base + 1024)) mem _ _ _ :=
    finddirStep_turn hname (dirBlock mem base node) (dirSlot mem base node)
  have hnone := hturn.val_of_few turns 0 fun j _ hj => hnever ?_
  · have hsome := hval turns le_rfl
    rw [finddir_walk_val hdiv h, hnone] at hsome
    cases hsome
  · have hex : ∃ k, WalkStops mem (dirBlock mem base node)
        (Inode.size mem (dirSlot mem base node)) (UInt32.ofNat xs.length)
        (recordAt mem (dirBlock mem base node) k) := ⟨j, hj⟩
    exact ⟨_, Nat.find hex, rfl, fun i hi => Nat.find_min hex hi, Nat.find_spec hex⟩

end Walk

/-! ### Looking up a name -/

section Lookup

variable {image : Mem} {base inode node name file : UInt32} {code : ReadBy.InitrdCode}
  {fresh : Buffer} {xs : List UInt8}

/-- What a lookup in a directory should return: the file of the used entry with the name, or `NULL`
if there is none.  The inodes are where the format of the image puts them. -/
def LookupOk (image : Mem) (base : UInt32) (d : Directory (mounted image base) base inode)
    (xs : List UInt8) (r : UInt32 × Buffer) : Prop :=
  (∃ e ∈ d.records, Names (mounted image base) xs e ∧ r.1 ≠ 0 ∧
    FileOf (mounted image base) (read32 (mounted image base) e)
      (inodeAddr image base (read32 (mounted image base) e)) xs r.2) ∨
  (∀ e ∈ d.records, ¬ Names (mounted image base) xs e) ∧ r.1 = 0

/-- `initrd_finddir` returns, and what it should. -/
def FinddirOk (image : Mem) (base : UInt32) (d : Directory (mounted image base) base inode)
    (code : ReadBy.InitrdCode) (file : UInt32) (fresh : Buffer) (node name : UInt32)
    (xs : List UInt8) : Prop :=
  ∃ r, FinddirGives (mounted image base) code file fresh node name base r ∧
    LookupOk image base d xs r

/-- The file made for this entry is that of inode `number`, which the format puts at `place`, under
the name: the entry has the number and the name, and a zero byte follows in memory and in the object;
what is read of the inode is what the format has there; and the object's type has held nothing that
is not of the type. -/
structure Suits (mem : Mem) (base file : UInt32) (fresh : Buffer) (ent number place : UInt32)
    (xs : List UInt8) : Prop where
  file_ne : file ≠ 0
  name : ∃ ys, NameCopied mem ent fresh xs ys
  same : read32 mem ent = number
  fields : inodeFields mem (inodeSlot mem (base + 1024) number) = inodeFields mem place
  type : ReadBy.fetch32 fresh 140 |||
    ReadBy.typetofile (read16 mem (inodeSlot mem (base + 1024) number)) =
      fileType (read16 mem place)

/-- An entry that matches, and yet `NULL` is returned: there was no object, or the string at its name
is too long. -/
def GivesNull (mem : Mem) (file ent : UInt32) : Prop :=
  file = 0 ∨ ∃ ys, StringAt mem (ent + 8) ys ∧ 128 < ys.length

/-- A used entry has the name, and the first record of that length that the walk comes to suits; or
none has it, and the walk, if there is one, ends with no such record, or with one that gives `NULL`. -/
def FinddirMet (image : Mem) (base : UInt32) (d : Directory (mounted image base) base inode)
    (file : UInt32) (fresh : Buffer) (node : UInt32) (xs : List UInt8) : Prop :=
  (∃ e ∈ d.records, Names (mounted image base) xs e ∧ WalkStarts (mounted image base) base node ∧
    ∃ index, ComesTo (mounted image base) base node (UInt32.ofNat xs.length) index ∧
      index < Inode.size (mounted image base) (dirSlot (mounted image base) base node) ∧
      Suits (mounted image base) base file fresh (dirBlock (mounted image base) base node + index)
        (read32 (mounted image base) e) (inodeAddr image base (read32 (mounted image base) e)) xs) ∨
  (∀ e ∈ d.records, ¬ Names (mounted image base) xs e) ∧
    (WalkStarts (mounted image base) base node →
      ∃ index, ComesTo (mounted image base) base node (UInt32.ofNat xs.length) index ∧
        (index < Inode.size (mounted image base) (dirSlot (mounted image base) base node) →
          GivesNull (mounted image base) file
            (dirBlock (mounted image base) base node + index)))

theorem Ext2Image.noZeroDivisor (wf : Ext2Image image base) (n : UInt32) :
    NoZeroDivisor (mounted image base) (base + 1024) n := by
  right
  rw [mounted_inodePerGroup, mounted_blockPerGroup]
  refine ⟨fun h => ?_, fun h => ?_⟩
  · have hpos := wf.inodePerGroup
    rw [h] at hpos
    exact Nat.lt_irrefl _ hpos
  · have hpos := wf.blockPerGroup
    rw [h] at hpos
    exact Nat.lt_irrefl _ hpos

section Outcome

variable {d : Directory (mounted image base) base inode}

theorem FinddirGives.ok_iff {r : UInt32 × Buffer}
    (h : FinddirGives (mounted image base) code file fresh node name base r) :
    FinddirOk image base d code file fresh node name xs ↔ LookupOk image base d xs r := by
  constructor
  · rintro ⟨r', hr', hok⟩
    rwa [h.unique hr']
  · intro hok
    exact ⟨r, h, hok⟩

theorem lookupOk_null (b : Buffer) :
    LookupOk image base d xs (0, b) ↔ ∀ e ∈ d.records, ¬ Names (mounted image base) xs e := by
  constructor
  · rintro (⟨_, _, _, hne, _⟩ | ⟨hnone, _⟩)
    · exact absurd rfl hne
    · exact hnone
  · intro hnone
    exact Or.inr ⟨hnone, rfl⟩

/-- The file that is made is the right one exactly when the entry suits. -/
theorem fileOf_iff {ent number place : UInt32} {b : Buffer} {ys : List UInt8}
    (hent : StringAt (mounted image base) (ent + 8) ys)
    (hmade : MadeFrom (mounted image base) (base + 1024) ent fresh ys.length b) :
    file ≠ 0 ∧ FileOf (mounted image base) number place xs b ↔
      Suits (mounted image base) base file fresh ent number place xs := by
  constructor
  · rintro ⟨hfile, hof⟩
    have hnumber : read32 (mounted image base) ent = number := hmade.number.symm.trans hof.number
    refine ⟨hfile, ⟨ys, (nameHolds_iff hent hmade.name).1 hof.name⟩, hnumber, ?_, ?_⟩
    · rw [← hnumber, ← hmade.fields, hof.fields]
    · rw [← hnumber, ← hmade.type, hof.type]
  · intro hsuits
    obtain ⟨ys', hcopied⟩ := hsuits.name
    obtain rfl := hent.unique hcopied.string
    refine ⟨hsuits.file_ne, (nameHolds_iff hent hmade.name).2 hcopied, ?_, ?_, ?_⟩
    · rw [hmade.number, hsuits.same]
    · rw [hmade.fields, hsuits.same, hsuits.fields]
    · rw [hmade.type, hsuits.same, hsuits.type]

/-- Where `NULL` is returned, the condition comes down to there being no entry with the name. -/
theorem finddirMet_null
    (hnull : ∀ index, ComesTo (mounted image base) base node (UInt32.ofNat xs.length) index →
      WalkStarts (mounted image base) base node →
      index < Inode.size (mounted image base) (dirSlot (mounted image base) base node) →
      ∃ ys, StringAt (mounted image base) (dirBlock (mounted image base) base node + index + 8) ys ∧
        128 < ys.length)
    (hends : WalkStarts (mounted image base) base node →
      ∃ index, ComesTo (mounted image base) base node (UInt32.ofNat xs.length) index) :
    FinddirMet image base d file fresh node xs ↔
      ∀ e ∈ d.records, ¬ Names (mounted image base) xs e := by
  constructor
  · rintro (⟨_, _, _, hstart, index, hto, hin, hsuits⟩ | ⟨hnone, _⟩)
    · obtain ⟨ys, hys, hlong⟩ := hnull index hto hstart hin
      obtain ⟨ys', hcopied⟩ := hsuits.name
      obtain rfl := hys.unique hcopied.string
      have hle := hcopied.start.length_le
      have hfits := hcopied.fits
      omega
    · exact hnone
  · intro hnone
    refine Or.inr ⟨hnone, fun hstart => ?_⟩
    obtain ⟨index, hto⟩ := hends hstart
    exact ⟨index, hto, fun hin => Or.inr (hnull index hto hstart hin)⟩

/-- Where the walk ends at a record and a file is made of it. -/
theorem finddirMet_made {index : UInt32} {b : Buffer} {ys : List UInt8}
    (hstart : WalkStarts (mounted image base) base node)
    (hto : ComesTo (mounted image base) base node (UInt32.ofNat xs.length) index)
    (hin : index < Inode.size (mounted image base) (dirSlot (mounted image base) base node))
    (hent : StringAt (mounted image base) (dirBlock (mounted image base) base node + index + 8) ys)
    (hshort : ys.length ≤ 128)
    (hmade : MadeFrom (mounted image base) (base + 1024)
      (dirBlock (mounted image base) base node + index) fresh ys.length b) :
    LookupOk image base d xs (file, b) ↔ FinddirMet image base d file fresh node xs := by
  constructor
  · rintro (⟨e, he, hnames, hof⟩ | ⟨hnone, hfile⟩)
    · exact Or.inl ⟨e, he, hnames, hstart, index, hto, hin, (fileOf_iff hent hmade).1 hof⟩
    · exact Or.inr ⟨hnone, fun _ => ⟨index, hto, fun _ => Or.inl hfile⟩⟩
  · rintro (⟨e, he, hnames, _, index', hto', _, hsuits⟩ | ⟨hnone, hends⟩)
    · obtain rfl := hto.unique hto'
      exact Or.inl ⟨e, he, hnames, (fileOf_iff hent hmade).2 hsuits⟩
    · obtain ⟨index', hto', hnull⟩ := hends hstart
      obtain rfl := hto.unique hto'
      refine Or.inr ⟨hnone, ?_⟩
      rcases hnull hin with hfile | ⟨ys', hys', hlong⟩
      · exact hfile
      · obtain rfl := hent.unique hys'
        omega

theorem finddirOk_iff_met (wf : Ext2Image image base)
    (hname : StringAt (mounted image base) name xs) :
    FinddirOk image base d code file fresh node name xs ↔
      FinddirMet image base d file fresh node xs := by
  have hdiv := wf.noZeroDivisor
  by_cases hstart : WalkStarts (mounted image base) base node
  · by_cases hends : ∃ index,
        ComesTo (mounted image base) base node (UInt32.ofNat xs.length) index
    · obtain ⟨index, hto⟩ := hends
      by_cases hin : index < Inode.size (mounted image base) (dirSlot (mounted image base) base node)
      · obtain ⟨ys, hys⟩ := exists_stringAt hname.terminator
          (dirBlock (mounted image base) base node + index + 8)
        rcases found_val code file fresh hys (hdiv _) with
          ⟨hlong, hval⟩ | ⟨hshort, b, hval, hmade⟩
        · -- the string at the entry is too long
          have hgives := finddir_walk (hdiv _) hname hstart hto (by rw [finddirEnd, if_pos hin, hval])
          rw [hgives.ok_iff, lookupOk_null, finddirMet_null]
          · intro index' hto' _ _
            obtain rfl := hto.unique hto'
            exact ⟨ys, hys, hlong⟩
          · exact fun _ => ⟨index, hto⟩
        · have hgives := finddir_walk (hdiv _) hname hstart hto (by rw [finddirEnd, if_pos hin, hval])
          rw [hgives.ok_iff]
          exact finddirMet_made hstart hto hin hys hshort hmade
      · -- the records end
        have hgives : FinddirGives (mounted image base) code file fresh node name base (0, fresh) :=
          finddir_walk (hdiv _) hname hstart hto (by rw [finddirEnd, if_neg hin])
        rw [hgives.ok_iff, lookupOk_null, finddirMet_null]
        · intro index' hto' _ hin'
          obtain rfl := hto.unique hto'
          exact absurd hin' hin
        · exact fun _ => ⟨index, hto⟩
    · refine iff_of_false ?_ ?_
      · rintro ⟨r, hr, _⟩
        exact finddir_endless (hdiv _) hname hstart hends r hr
      · rintro (⟨_, _, _, _, index, hto, _⟩ | ⟨_, hall⟩)
        · exact hends ⟨index, hto⟩
        · obtain ⟨index, hto, _⟩ := hall hstart
          exact hends ⟨index, hto⟩
  · have hgives : FinddirGives (mounted image base) code file fresh node name base (0, fresh) :=
      finddir_no_walk (hdiv _) hstart
    rw [hgives.ok_iff, lookupOk_null, finddirMet_null]
    · exact fun _ _ h _ => absurd h hstart
    · exact fun h => absurd h hstart

end Outcome

/-- **Finding a name.**  For every directory of a well-formed image that has been mounted and every
name, `initrd_finddir` returns the file of the used entry with the name, or `NULL` if there is none,
exactly when the first record of the name's length that the walk comes to is such an entry and suits,
or there is no such entry and the walk comes to none that a file is made of. -/
theorem finddir_ok_iff (wf : Ext2Image image base) (code : ReadBy.InitrdCode) (file : UInt32)
    (fresh : Buffer) (node name : UInt32) (xs : List UInt8)
    (hname : StringAt (mounted image base) name xs)
    (d : Directory (mounted image base) base
      (inodeAddr image base (ReadBy.nodeInode (mounted image base) node))) :
    FinddirOk image base d code file fresh node name xs ↔
      FinddirMet image base d file fresh node xs :=
  finddirOk_iff_met wf hname

end Lookup

/-! ### A directory with one name -/

/-- Inode 1 of `image256` as a directory with one block and one record, inode 1 under the name `a`.
Outside the image lie the names `b` and `a`, and a node for inode 1. -/
def imageNames : Mem :=
  write32 (write16 (write16 (write16 (write16 (write16 (write32 (write32 (write32 (write16 image256
    0x101400 0x4000) 0x101404 1024) 0x101428 10) 0x102800 1) 0x102804 1024) 0x102806 1) 0x102808 97)
    0x200000 98) 0x200010 97) 0x200190 1

theorem imageNames_wf : Ext2Image imageNames 0x100000 := by
  refine image256_wf.congr ⟨?_, ?_, ?_, ?_, ?_, ?_, ?_, ?_⟩ ?_
  all_goals decide

def directoryNames : Directory (mounted imageNames 0x100000) 0x100000
    (inodeAddr imageNames 0x100000 (ReadBy.nodeInode (mounted imageNames 0x100000) 0x200100)) where
  blocks := 1
  block _ := 0x102800
  count _ := 1
  log := by decide
  size := by decide
  placed := by decide
  empty := by decide
  lengths := by decide
  tiled := by decide

/-- The walk for a name of one character ends at the one record. -/
theorem comesTo_names (index : UInt32) :
    ComesTo (mounted imageNames 0x100000) 0x100000 0x200100 1 index ↔ index = 0 := by
  have hzero : ComesTo (mounted imageNames 0x100000) 0x100000 0x200100 1 0 := by
    refine ⟨0, rfl, fun j hj => absurd hj (Nat.not_lt_zero j), Or.inr ?_⟩
    decide
  constructor
  · intro h
    exact h.unique hzero
  · rintro rfl
    exact hzero

theorem walkStarts_names : WalkStarts (mounted imageNames 0x100000) 0x100000 0x200100 := by
  unfold WalkStarts
  decide

theorem finddir_finds_a :
    FinddirOk imageNames 0x100000 directoryNames ⟨1, 2, 3⟩ 0x300000 (fun _ => 0) 0x200100 0x200010
      [97] := by
  refine (finddir_ok_iff imageNames_wf ⟨1, 2, 3⟩ 0x300000 (fun _ => 0) 0x200100 0x200010 [97]
    (stringAt_single.2 (by decide)) directoryNames).2 (Or.inl ⟨0x102800, by decide,
      ⟨by decide, by decide⟩, walkStarts_names, 0, (comesTo_names 0).2 rfl, by decide, ?_⟩)
  refine ⟨by decide, ⟨[97], stringAt_single.2 (by decide), by decide, List.prefix_rfl,
    fun i hi h => ?_, rfl⟩, by decide, ?_, by decide⟩
  · exact absurd h (Nat.not_lt.2 hi)
  · rfl

/-- **Any name of the right length is found**: looking for `b` gives the file of `a`. -/
theorem finddir_finds_wrong :
    ¬ FinddirOk imageNames 0x100000 directoryNames ⟨1, 2, 3⟩ 0x300000 (fun _ => 0) 0x200100 0x200000
      [98] := by
  intro h
  have hstring : StringAt (mounted imageNames 0x100000) 0x102808 [97] :=
    stringAt_single.2 (by decide)
  have hname : StringAt (mounted imageNames 0x100000) 0x200000 [98] :=
    stringAt_single.2 (by decide)
  rcases (finddirOk_iff_met imageNames_wf hname).1 h with ⟨e, he, hnames, _⟩ | ⟨_, hends⟩
  · have hrecords : directoryNames.records = [0x102800] := by decide
    rw [hrecords] at he
    obtain rfl := List.mem_singleton.1 he
    exact absurd hnames.2 (by decide)
  · obtain ⟨index, hto, hnull⟩ := hends walkStarts_names
    obtain rfl := (comesTo_names index).1 hto
    rcases hnull (by decide) with hfile | ⟨ys, hys, hlong⟩
    · exact absurd hfile (by decide)
    · obtain rfl : ys = [97] := hys.unique hstring
      exact absurd hlong (by decide)

end CometOS
