import CometOS.Ext2Inside
import CometOS.VfsNull
import CometOS.Lib.Record
import CometOS.Lib.Run

/-!
# File nodes over time (`fs/vfs.c`, `fs/initrd.c`)

The operations of the virtual file system on all of memory: the functions are called through the
pointers in the node, and the superblock is found through `ext2_initrd`, a pointer that nothing ever
sets.  What a function fills in, a buffer or an object from `kmalloc`, is memory like any other; what
`kmalloc` keeps for itself is left out.

A run mounts an image and then makes calls in any order, on the nodes it has been given so far.  As
long as what the calls fill in is nobody else's, no node is ever damaged, no call goes astray, and
the same call has the same answer at any time.
-/

namespace CometOS

open ByteMemory CString Reader Record Run Word32

/-! ### `file_t` -/

/-- The fields of a `file_t` behind its name. -/
inductive FileField
  | mask | uid | gid | flag | inode | size | impl | read | write | openFile | close | readdir | finddir
  | ptr
  deriving DecidableEq

def fileT : Layout FileField where
  offset
    | .mask => 128
    | .uid => 132
    | .gid => 136
    | .flag => 140
    | .inode => 144
    | .size => 148
    | .impl => 152
    | .read => 156
    | .write => 160
    | .openFile => 164
    | .close => 168
    | .readdir => 172
    | .finddir => 176
    | .ptr => 180
  size := 184
  inside f := by cases f <;> decide
  apart f g h := by cases f <;> cases g <;> first | exact absurd rfl h | decide

/-! ### Objects in memory -/

/-- What lies from `a` on. -/
def objectAt (mem : Mem) (a : UInt32) : Buffer := fun k => mem (a + UInt32.ofNat k)

/-- The memory in which `b` lies from `a` on. -/
def storeObject (b : Buffer) (a : UInt32) : Mem := fun x => b (x - a).toNat

theorem storeObject_of_eq {b : Buffer} {mem : Mem} {a x : UInt32}
    (h : b (x - a).toNat = objectAt mem a (x - a).toNat) : storeObject b a x = mem x := by
  rw [storeObject, h, objectAt, ofNat_toNat, show a + (x - a) = x by grind]

/-- A field of an object is the word at its place. -/
theorem get_storeObject (b : Buffer) (a : UInt32) (f : FileField) :
    fileT.get (storeObject b a) a f = ReadBy.fetch32 b (fileT.offset f).toNat := by
  have hin : (fileT.offset f).toNat + 4 ≤ 184 := fileT.inside f
  have hbyte : ∀ i : UInt32, i.toNat < 4 → storeObject b a (a + fileT.offset f + i) =
      b ((fileT.offset f).toNat + i.toNat) := by
    intro i hi
    rw [storeObject, show a + fileT.offset f + i - a = fileT.offset f + i by grind,
      toNat_add_of_lt (by omega)]
  have h0 := hbyte 0 (by decide)
  rw [UInt32.add_zero] at h0
  rw [Layout.get, read32, ReadBy.fetch32, h0, hbyte 1 (by decide), hbyte 2 (by decide),
    hbyte 3 (by decide)]
  rfl

/-! ### `initrd.c` and `vfs.c` -/

/-- `ext2_initrd`: a global pointer, null from the start. -/
def ext2Initrd : UInt32 := 0

namespace ReadBy

open Prog

/-- `initrd_read`. -/
def initrdRead (n : ℕ) (node offset size : UInt32) (buffer : Option Buffer) (superblock : UInt32) :
    Prog (UInt32 × Option Buffer) := do
  let number ← peek fun mem => some (nodeInode mem node)
  let inode ← ext2InodeGet number superblock
  ext2Read n offset buffer size inode superblock

end ReadBy

/-- A call of one of the operations, with the caller's buffer or the place where `kmalloc` puts the
object it is asked for. -/
inductive VfsOp
  | read (node offset size buffer : UInt32)
  | write (node offset size buffer : UInt32)
  | openFile (node : UInt32) (read write : UInt8)
  | close (node : UInt32)
  | readdir (node index entry : UInt32)
  | finddir (node name file : UInt32)

namespace VfsOp

open Prog

/-- What the call fills in: where, and how much. -/
def place : VfsOp → UInt32
  | read _ _ _ buffer => buffer
  | write _ _ _ _ => 0
  | openFile _ _ _ => 0
  | close _ => 0
  | readdir _ _ entry => entry
  | finddir _ _ file => file

def room : VfsOp → ℕ
  | read _ _ size buffer => if buffer = 0 then 0 else size.toNat
  | write _ _ _ _ => 0
  | openFile _ _ _ => 0
  | close _ => 0
  | readdir _ _ _ => 132
  | finddir _ _ _ => 184

def node : VfsOp → UInt32
  | read node _ _ _ => node
  | write node _ _ _ => node
  | openFile node _ _ => node
  | close node => node
  | readdir node _ _ => node
  | finddir node _ _ => node

/-- The pointer in the node that the call goes through. -/
def field : VfsOp → FileField
  | read _ _ _ _ => .read
  | write _ _ _ _ => .write
  | openFile _ _ _ => .openFile
  | close _ => .close
  | readdir _ _ _ => .readdir
  | finddir _ _ _ => .finddir

/-- The operation is one on directories. -/
def onDirectory : VfsOp → Bool
  | read _ _ _ _ => false
  | write _ _ _ _ => false
  | openFile _ _ _ => false
  | close _ => false
  | readdir _ _ _ => true
  | finddir _ _ _ => true

/-- The function of the initrd for the call; there is none to write, to open or to close. -/
def function (code : ReadBy.InitrdCode) : VfsOp → Option UInt32
  | read _ _ _ _ => some code.read
  | write _ _ _ _ => none
  | openFile _ _ _ => none
  | close _ => none
  | readdir _ _ _ => some code.readdir
  | finddir _ _ _ => some code.finddir

/-- What that function does, over what has been at its place. -/
def initrd (n : ℕ) (code : ReadBy.InitrdCode) (fresh : Buffer) (superblock : UInt32) :
    VfsOp → Prog (UInt32 × Buffer)
  | read node offset size buffer => do
    let r ← ReadBy.initrdRead n node offset size (if buffer = 0 then none else some fresh) superblock
    pure (r.1, r.2.getD fresh)
  | write _ _ _ _ => trap
  | openFile _ _ _ => trap
  | close _ => trap
  | readdir node index entry => ReadBy.initrdReaddir n entry fresh node index superblock
  | finddir node name file => ReadBy.initrdFinddir n code file fresh node name superblock

/-- `vfs_read` and the others: the call goes through the node's pointer if that is not null, and the
node a directory where it has to be.  Where a pointer is to none of the functions, there is no saying
what happens. -/
def prog (n : ℕ) (code : ReadBy.InitrdCode) (fresh : Buffer) (op : VfsOp) :
    Prog (UInt32 × Buffer) := do
  let flag ← peek fun mem => some (nodeFlag mem op.node)
  let pointer ← peek fun mem => some (fileT.get mem op.node op.field)
  if op.onDirectory = true ∧ flag &&& 0x7 ≠ 2 ∨ pointer = 0 then pure (0, fresh)
  else if op.function code = some pointer then do
    let superblock ← peek fun mem => some (read32 mem ext2Initrd)
    op.initrd n code fresh superblock
  else trap

/-- The call on all of memory: what is returned, and the memory then. -/
def call (n : ℕ) (code : ReadBy.InitrdCode) (op : VfsOp) (mem : Mem) : Option (UInt32 × Mem) :=
  (op.prog n code (objectAt mem op.place) mem).1.map fun r => (r.1, storeObject r.2 op.place)

end VfsOp

def vfsRead (n : ℕ) (code : ReadBy.InitrdCode) (node offset size buffer : UInt32) :
    Mem → Option (UInt32 × Mem) :=
  (VfsOp.read node offset size buffer).call n code

def vfsWrite (n : ℕ) (code : ReadBy.InitrdCode) (node offset size buffer : UInt32) :
    Mem → Option (UInt32 × Mem) :=
  (VfsOp.write node offset size buffer).call n code

def vfsOpen (n : ℕ) (code : ReadBy.InitrdCode) (node : UInt32) (read write : UInt8) :
    Mem → Option (UInt32 × Mem) :=
  (VfsOp.openFile node read write).call n code

def vfsClose (n : ℕ) (code : ReadBy.InitrdCode) (node : UInt32) : Mem → Option (UInt32 × Mem) :=
  (VfsOp.close node).call n code

def vfsReaddir (n : ℕ) (code : ReadBy.InitrdCode) (node index entry : UInt32) :
    Mem → Option (UInt32 × Mem) :=
  (VfsOp.readdir node index entry).call n code

def vfsFinddir (n : ℕ) (code : ReadBy.InitrdCode) (node name file : UInt32) :
    Mem → Option (UInt32 × Mem) :=
  (VfsOp.finddir node name file).call n code

/-! ### Runs -/

/-- What is known of a node: its flag, its inode number, and whether it is a file that can be read,
which the root is not. -/
structure FileNode where
  flag : UInt32
  number : UInt32
  readable : Bool
  deriving DecidableEq

/-- The memory, and the nodes that have been handed out. -/
structure VfsState where
  mem : Mem
  nodes : UInt32 → Option FileNode

/-- The nodes after a call that returned `r`. -/
def nodesAfter (s : VfsState) (mem : Mem) (r : UInt32) : VfsOp → UInt32 → Option FileNode
  | .finddir _ _ _ =>
    if r = 0 then s.nodes
    else Function.update s.nodes r
      (some ⟨fileT.get mem r .flag, fileT.get mem r .inode, true⟩)
  | _ => s.nodes

/-- One call, with `n` turns for each loop over the image. -/
def vfsStep (n : ℕ) (code : ReadBy.InitrdCode) (s : VfsState) (op : VfsOp) : Option VfsState :=
  (op.call n code s.mem).map fun r => { mem := r.2, nodes := nodesAfter s r.2 r.1 op }

/-- `initrd_initialize`, less what it does about an image marked as faulty; `root` is what `kmalloc`
returns.  `none` is a division by zero. -/
def initrdInitialize (code : ReadBy.InitrdCode) (addr root : UInt32) (mem : Mem) : Option Mem :=
  let (superblock, mem) := (ext2SuperblockGet mem addr).getD (0, mem)
  let mem := write32 mem ext2Initrd superblock
  (ext2InodeGet mem 2 superblock).map fun inode =>
    let mem := Function.update mem root 0x2F
    let mem := Function.update mem (root + 1) 0
    let mem := fileT.set mem root .mask ((read16 mem inode).toUInt32 &&& 0xFFF)
    let mem := fileT.set mem root .uid (read16 mem (inode + 2)).toUInt32
    let mem := fileT.set mem root .gid (read16 mem (inode + 24)).toUInt32
    let mem := fileT.set mem root .inode 2
    let mem := fileT.set mem root .flag
      (fileT.get mem root .flag ||| ReadBy.typetofile (read16 mem inode))
    let mem := fileT.set mem root .size (read32 mem (inode + 4))
    let mem := fileT.set mem root .read 0
    let mem := fileT.set mem root .write 0
    let mem := fileT.set mem root .openFile 0
    let mem := fileT.set mem root .close 0
    let mem := fileT.set mem root .readdir code.readdir
    let mem := fileT.set mem root .finddir code.finddir
    let mem := fileT.set mem root .ptr 0
    fileT.set mem root .impl 0

/-- The node has what it was made with. -/
structure NodeAt (code : ReadBy.InitrdCode) (mem : Mem) (node : UInt32) (f : FileNode) : Prop where
  flag : fileT.get mem node .flag = f.flag
  number : fileT.get mem node .inode = f.number
  read : fileT.get mem node .read = if f.readable = true then code.read else 0
  write : fileT.get mem node .write = 0
  openFile : fileT.get mem node .openFile = 0
  close : fileT.get mem node .close = 0
  readdir : fileT.get mem node .readdir = code.readdir
  finddir : fileT.get mem node .finddir = code.finddir

/-- The image is as it was in `m₀`, it can be found, and every node has what it was made with. -/
structure VfsIntact (code : ReadBy.InitrdCode) (m₀ : Mem) (base : UInt32) (s : VfsState) : Prop where
  superblock : read32 s.mem ext2Initrd = base + 1024
  image : ∀ x, InImage m₀ base x → s.mem x = m₀ x
  nodes : ∀ node f, s.nodes node = some f → NodeAt code s.mem node f

/-- The byte is none of `ext2_initrd`'s, of the image's or of a node's. -/
def Unclaimed (m₀ : Mem) (base : UInt32) (s : VfsState) (x : UInt32) : Prop :=
  4 ≤ (x - ext2Initrd).toNat ∧ ¬ InImage m₀ base x ∧
    ∀ node f, s.nodes node = some f → 184 ≤ (x - node).toNat

/-- The call is on a node that has been handed out and fills in what is nobody else's; and the name of
the entry that `initrd_readdir` copies, with the zero behind it, is inside the object. -/
structure VfsOpOk (n : ℕ) (m₀ : Mem) (base : UInt32) (s : VfsState) (op : VfsOp) : Prop where
  node : s.nodes op.node ≠ none
  place : ∀ x, (x - op.place).toNat < op.room → Unclaimed m₀ base s x
  name : ∀ node index entry, op = .readdir node index entry →
    ∀ ent, (ReadBy.ext2DirentryGet n index
      (inodeSlot s.mem (base + 1024) (ReadBy.nodeInode s.mem node)) (base + 1024) s.mem).1 = some ent →
      (nameLen s.mem ent).toNat < 132

/-- The call comes back at once or goes to the function of the initrd that it should. -/
def VfsOp.CallsInitrd (code : ReadBy.InitrdCode) (s : VfsState) (op : VfsOp) : Prop :=
  fileT.get s.mem op.node op.field = 0 ∨
    op.function code = some (fileT.get s.mem op.node op.field)

/-! ### What the functions read -/

section Agrees

variable {m m' : Mem}

theorem agrees_blocksizeGet (superblock : UInt32) :
    Agrees m m' (ReadBy.ext2BlocksizeGet superblock) :=
  (agrees_load32 _).bind fun _ => agrees_pure _

theorem agrees_bgDesGet (g superblock : UInt32) : Agrees m m' (ReadBy.ext2BgDesGet g superblock) := by
  have hgroup : Agrees m m' (ReadBy.ext2BlockgroupGet g superblock) :=
    (agrees_blocksizeGet _).bind fun _ => (agrees_load32 _).bind fun _ =>
      (agrees_blocksizeGet _).bind fun _ => agrees_pure _
  exact hgroup.bind fun _ => (agrees_blocksizeGet _).bind fun _ => agrees_pure _

theorem agrees_inodeGet (inode superblock : UInt32) :
    Agrees m m' (ReadBy.ext2InodeGet inode superblock) := by
  unfold ReadBy.ext2InodeGet
  refine (agrees_load32 _).bind fun _ => (agrees_pure _).ite ?_
  refine (agrees_load32 _).bind fun _ => agrees_trap.ite ?_
  refine (agrees_load32 _).bind fun _ => (agrees_load32 _).bind fun _ => agrees_trap.ite ?_
  refine (agrees_pure _).ite ((agrees_bgDesGet _ _).bind fun _ => (agrees_load32 _).bind fun _ => ?_)
  exact (agrees_blocksizeGet _).bind fun _ => (agrees_load32 _).bind fun _ =>
    (agrees_load16 _).bind fun _ => agrees_pure _

theorem agrees_blockGet (block superblock : UInt32) :
    Agrees m m' (ReadBy.ext2BlockGet block superblock) :=
  (agrees_pure _).ite ((agrees_blocksizeGet _).bind fun _ => agrees_pure _)

theorem agrees_inodeblockGet (block inode superblock : UInt32) :
    Agrees m m' (ReadBy.ext2InodeblockGet block inode superblock) := by
  unfold ReadBy.ext2InodeblockGet
  refine Agrees.ite ?_ ?_
  · exact (agrees_load32 _).bind fun _ => (agrees_pure _).ite
      ((agrees_load32 _).bind fun _ => agrees_blockGet _ _)
  · refine (agrees_blocksizeGet _).bind fun _ => Agrees.ite ?_ (agrees_pure _)
    refine (agrees_load32 _).bind fun _ => (agrees_blockGet _ _).bind fun _ => ?_
    exact (agrees_load32 _).bind fun _ => (agrees_pure _).ite
      ((agrees_load32 _).bind fun _ => agrees_blockGet _ _)

theorem agrees_memcpyFrom (src size : UInt32) (buffer : Buffer) :
    Agrees m m' (ReadBy.memcpyFrom src size buffer) := by
  intro h
  have hbytes : Covered (fun x => m' x = m x) src size.toNat :=
    h ⟨src, size.toNat⟩ (List.mem_singleton.2 rfl)
  refine congrArg some (funext fun k => ?_)
  rw [memcpyFrom_apply, memcpyFrom_apply]
  split
  · rename_i hk
    exact hbytes k hk
  · rfl

theorem agrees_direntryGet (n : ℕ) (index inode superblock : UInt32) :
    Agrees m m' (ReadBy.ext2DirentryGet n index inode superblock) := by
  refine (agrees_inodeblockGet _ _ _).bind fun _ => Agrees.loop (fun s => ?_) n _
  refine Agrees.ite ?_ ((agrees_pure _).ite (agrees_pure _))
  refine (agrees_load32 _).bind fun _ => (agrees_pure _).ite ?_
  refine (agrees_blocksizeGet _).bind fun _ => Agrees.ite ?_ ?_
  · exact (agrees_inodeblockGet _ _ _).bind fun _ => agrees_pure _
  · exact (agrees_load16 _).bind fun _ => agrees_pure _

theorem agrees_read (n : ℕ) (offset : UInt32) (buffer : Option Buffer)
    (size inode superblock : UInt32) :
    Agrees m m' (ReadBy.ext2Read n offset buffer size inode superblock) := by
  cases buffer with
  | none => exact agrees_pure _
  | some b =>
    have hstart : Agrees m m' (ReadBy.ext2ReadStart offset superblock) :=
      Agrees.ite ((agrees_blocksizeGet _).bind fun _ => agrees_trap.ite
        ((agrees_blocksizeGet _).bind fun _ => agrees_pure _)) (agrees_pure _)
    refine (agrees_pure _).ite (hstart.bind fun _ => Agrees.bind ?_ fun _ => agrees_pure _)
    refine Agrees.loop (fun s => ?_) n _
    refine (agrees_inodeblockGet _ _ _).bind fun _ => (agrees_blocksizeGet _).bind fun _ => ?_
    refine Agrees.ite ((agrees_memcpyFrom _ _ _).bind fun _ => agrees_pure _) ?_
    exact (agrees_blocksizeGet _).bind fun _ => (agrees_memcpyFrom _ _ _).bind fun _ =>
      (agrees_blocksizeGet _).bind fun _ => agrees_pure _

theorem agrees_strlen (string : UInt32) : Agrees m m' (ReadBy.strlen string) :=
  Agrees.loop (fun _ => (agrees_load8 _).bind fun _ => (agrees_pure _).ite (agrees_pure _)) _ _

theorem agrees_found (code : ReadBy.InitrdCode) (file : UInt32) (fresh : Buffer)
    (ent superblock : UInt32) :
    Agrees m m' (ReadBy.initrdFound code file fresh ent superblock) := by
  refine (agrees_load32 _).bind fun _ => (agrees_inodeGet _ _).bind fun _ => ?_
  refine (agrees_strlen _).bind fun _ => (agrees_pure _).ite ?_
  refine ((agrees_strlen _).bind fun _ => agrees_memcpyFrom _ _ _).bind fun _ => ?_
  refine (agrees_load16 _).bind fun _ => (agrees_load16 _).bind fun _ => ?_
  refine (agrees_load16 _).bind fun _ => (agrees_load32 _).bind fun _ => ?_
  refine ((agrees_load16 _).bind fun _ => agrees_pure _).bind fun _ => ?_
  exact (agrees_load32 _).bind fun _ => agrees_pure _

/-- The name looked for is the caller's: it is enough that it is the same string. -/
theorem agrees_entryMatches {name : UInt32} {xs : List UInt8} (hname : StringAt m name xs)
    (hname' : StringAt m' name xs) (ent : UInt32) : Agrees m m' (ReadBy.entryMatches ent name) := by
  intro h
  have hlen : Agrees m m' (Prog.load16 (ent + 6)) := agrees_load16 _
  have hsame : read16 m' (ent + 6) = read16 m (ent + 6) := by
    refine Option.some.inj (hlen fun r hr => h r ?_)
    show r ∈ (ReadBy.entryMatches ent name m).2
    unfold ReadBy.entryMatches
    rw [bind_log_of (a := UInt32.ofNat xs.length) (by rw [peek_val, strlen_eq hname])]
    refine List.mem_append_right _ ?_
    rw [bind_log_of (a := read16 m (ent + 6)) rfl]
    exact List.mem_append_left _ hr
  rw [entryMatches_val hname, entryMatches_val hname', hsame]

end Agrees

/-! ### What the functions fill in -/

section Filled

variable {mem : Mem} {code : ReadBy.InitrdCode} {n : ℕ} {fresh b : Buffer}
  {node name file entry index offset size superblock r : UInt32}

/-- `initrd_finddir` has made a file of the object. -/
structure FileMade (code : ReadBy.InitrdCode) (fresh b : Buffer) : Prop where
  rest : ∀ k, 184 ≤ k → b k = fresh k
  read : ReadBy.fetch32 b 156 = code.read
  write : ReadBy.fetch32 b 160 = 0
  openFile : ReadBy.fetch32 b 164 = 0
  close : ReadBy.fetch32 b 168 = 0
  readdir : ReadBy.fetch32 b 172 = code.readdir
  finddir : ReadBy.fetch32 b 176 = code.finddir

theorem found_made {ent : UInt32}
    (h : (ReadBy.initrdFound code file fresh ent superblock mem).1 = some (r, b)) :
    (r = 0 ∧ b = fresh) ∨ r = file ∧ FileMade code fresh b := by
  simp only [ReadBy.initrdFound, ReadBy.strcpy, bind_val, load16_val, load32_val, inodeGet_val,
    memcpyFrom_val, inodeTypetofile_val, pure_val, Option.bind_some, ite_val] at h
  obtain ⟨inode, -, h⟩ := Option.bind_eq_some_iff.1 h
  obtain ⟨length, hlength, h⟩ := Option.bind_eq_some_iff.1 h
  split at h
  · cases h
    exact Or.inl ⟨rfl, rfl⟩
  · rename_i hle
    rw [hlength] at h
    simp only [Option.bind_some] at h
    have hcopy : length.toNat ≤ 128 := by
      rw [UInt32.lt_iff_toNat_lt] at hle
      exact Nat.le_of_not_lt hle
    cases h
    refine Or.inr ⟨rfl, fun k hk => ?_, ?_, ?_, ?_, ?_, ?_, ?_⟩
    · simp (disch := omega) only [store32_byte, memcpyFrom_of_le]
    · simp (disch := omega) only [fetch32_store32_of_apart, fetch32_store32]
    · simp (disch := omega) only [fetch32_store32_of_apart, fetch32_store32]
    · simp (disch := omega) only [fetch32_store32_of_apart, fetch32_store32]
    · simp (disch := omega) only [fetch32_store32_of_apart, fetch32_store32]
    · simp (disch := omega) only [fetch32_store32_of_apart, fetch32_store32]
    · simp (disch := omega) only [fetch32_store32_of_apart, fetch32_store32]

theorem finddir_made
    (h : (ReadBy.initrdFinddir n code file fresh node name superblock mem).1 = some (r, b)) :
    (r = 0 ∧ b = fresh) ∨ r = file ∧ FileMade code fresh b := by
  simp only [ReadBy.initrdFinddir, bind_val, peek_val, inodeblockGet_val, load16_val,
    Option.bind_some, ite_val, pure_val] at h
  obtain ⟨inode, -, h⟩ := Option.bind_eq_some_iff.1 h
  split at h
  · cases h
    exact Or.inl ⟨rfl, rfl⟩
  · split at h
    · cases h
      exact Or.inl ⟨rfl, rfl⟩
    · refine loop_rule (I := fun _ => True)
        (Q := fun r : UInt32 × Buffer =>
          (r.1 = 0 ∧ r.2 = fresh) ∨ r.1 = file ∧ FileMade code fresh r.2)
        (fun _ _ _ _ => trivial) (fun index r _ hr => ?_) n 0 (r, b) trivial h
      simp only [ReadBy.initrdFinddirStep, bind_val, load32_val, load16_val, Option.bind_some,
        ite_val, pure_val] at hr
      split at hr
      · obtain ⟨matched, -, hr⟩ := Option.bind_eq_some_iff.1 hr
        split at hr
        · obtain ⟨found, hfound, hr⟩ := Option.bind_eq_some_iff.1 hr
          cases hr
          exact found_made hfound
        · cases hr
      · cases hr
        exact Or.inl ⟨rfl, rfl⟩

/-- `initrd_readdir` fills in the name and the inode number. -/
theorem readdir_rest
    (h : (ReadBy.initrdReaddir n entry fresh node index superblock mem).1 = some (r, b))
    (hname : ∀ ent, (ReadBy.ext2DirentryGet n index
      (inodeSlot mem superblock (ReadBy.nodeInode mem node)) superblock mem).1 = some ent →
      (nameLen mem ent).toNat < 132) :
    ∀ k, 132 ≤ k → b k = fresh k := by
  simp only [ReadBy.initrdReaddir, bind_val, peek_val, load16_val, load32_val, memcpyFrom_val,
    inodeGet_val, Option.bind_some, ite_val, pure_val] at h
  obtain ⟨inode, hinode, h⟩ := Option.bind_eq_some_iff.1 h
  obtain ⟨ent, hent, h⟩ := Option.bind_eq_some_iff.1 h
  have hslot : inode = inodeSlot mem superblock (ReadBy.nodeInode mem node) := by
    have hdiv := inodeGet_ne_none.1 (by rw [hinode]; exact Option.some_ne_none _)
    rw [inodeGet_of_noZeroDivisor hdiv] at hinode
    exact (Option.some.inj hinode).symm
  rw [hslot] at hent
  have hlen := hname ent hent
  intro k hk
  split at h
  · cases h
    rfl
  · cases h
    rw [nameLen] at hlen
    have hcopy : (read16 mem (ent + 6)).toUInt32.toNat < 132 := by
      rw [UInt16.toNat_toUInt32]
      exact hlen
    rw [store32_byte _ (by omega), Function.update_of_ne (by omega),
      memcpyFrom_of_le _ _ _ _ (by omega)]

/-- `ext2_read` fills in no more than it is asked for. -/
theorem read_rest {inode : UInt32} {o : Option Buffer}
    (h : (ReadBy.ext2Read n offset (some fresh) size inode superblock mem).1 = some (r, o)) :
    ∃ b, o = some b ∧ ∀ k, size.toNat ≤ k → b k = fresh k := by
  simp only [ReadBy.ext2Read, ite_val, pure_val, bind_val] at h
  split at h
  · cases h
    exact ⟨fresh, rfl, fun _ _ => rfl⟩
  · obtain ⟨start, -, h⟩ := Option.bind_eq_some_iff.1 h
    obtain ⟨b, hb, h⟩ := Option.bind_eq_some_iff.1 h
    cases h
    refine ⟨b, rfl, ?_⟩
    -- the count that is left is never above the size
    refine loop_rule
      (I := fun s : ReadState => s.index.toNat ≤ size.toNat ∧ ∀ k, size.toNat ≤ k → s.buffer k = fresh k)
      (Q := fun b => ∀ k, size.toNat ≤ k → b k = fresh k) (fun s t hs hst => ?_)
      (fun s c hs hsc => ?_) n ⟨size, start.1, start.2, fresh⟩ b ⟨le_rfl, fun _ _ => rfl⟩ hb
    · obtain ⟨hindex, hbuffer⟩ := hs
      by_cases hend : s.index ≤ s.left mem superblock
      · rw [(readStep_turn inode superblock).leave s hend] at hst
        cases hst
      · rw [(readStep_turn inode superblock).goes s hend] at hst
        obtain rfl := Sum.inl.inj (Option.some.inj hst)
        have hlt : (s.left mem superblock).toNat < s.index.toNat :=
          UInt32.lt_iff_toNat_lt.1 (UInt32.not_le.1 hend)
        refine ⟨?_, fun k hk => ?_⟩
        · show (s.index - s.left mem superblock).toNat ≤ _
          rw [toNat_sub_of_le (by omega)]
          omega
        · exact (memcpyFrom_of_le _ _ _ _ (by omega)).trans (hbuffer k hk)
    · obtain ⟨hindex, hbuffer⟩ := hs
      by_cases hend : s.index ≤ s.left mem superblock
      · rw [(readStep_turn inode superblock).leave s hend] at hsc
        obtain rfl := Sum.inr.inj (Option.some.inj hsc)
        intro k hk
        exact (memcpyFrom_of_le _ _ _ _ (by omega)).trans (hbuffer k hk)
      · rw [(readStep_turn inode superblock).goes s hend] at hsc
        cases hsc

end Filled

/-! ### One call -/

section Call

variable {mem m₀ : Mem} {code : ReadBy.InitrdCode} {n : ℕ} {fresh b : Buffer} {base r : UInt32}
  {s s' : VfsState} {op : VfsOp}

/-- A call that returns has done nothing, or what the initrd's function does. -/
theorem prog_cases (h : (op.prog n code fresh mem).1 = some (r, b)) :
    (r = 0 ∧ b = fresh) ∨
      (op.initrd n code fresh (read32 mem ext2Initrd) mem).1 = some (r, b) := by
  simp only [VfsOp.prog, bind_val, peek_val, Option.bind_some, ite_val, pure_val, trap_val] at h
  split at h
  · cases h
    exact Or.inl ⟨rfl, rfl⟩
  · split at h
    · exact Or.inr h
    · cases h

/-- A call fills in no more than its place. -/
theorem prog_rest (h : (op.prog n code fresh mem).1 = some (r, b))
    (hname : ∀ node index entry, op = .readdir node index entry →
      ∀ ent, (ReadBy.ext2DirentryGet n index (inodeSlot mem (read32 mem ext2Initrd)
        (ReadBy.nodeInode mem node)) (read32 mem ext2Initrd) mem).1 = some ent →
        (nameLen mem ent).toNat < 132) :
    ∀ k, op.room ≤ k → b k = fresh k := by
  rcases prog_cases h with ⟨-, rfl⟩ | hcall
  · exact fun _ _ => rfl
  · cases op with
    | read node offset size buffer =>
      simp only [VfsOp.initrd, ReadBy.initrdRead, bind_val, peek_val, Option.bind_some, pure_val,
        inodeGet_val] at hcall
      obtain ⟨⟨r', o⟩, hread, heq⟩ := Option.bind_eq_some_iff.1 hcall
      obtain ⟨inode, -, hread⟩ := Option.bind_eq_some_iff.1 hread
      cases heq
      by_cases hbuffer : buffer = 0
      · rw [if_pos hbuffer] at hread
        cases hread
        exact fun _ _ => rfl
      · rw [if_neg hbuffer] at hread
        obtain ⟨b', rfl, hrest⟩ := read_rest hread
        intro k hk
        rw [VfsOp.room, if_neg hbuffer] at hk
        exact hrest k hk
    | write node offset size buffer => cases hcall
    | openFile node read write => cases hcall
    | close node => cases hcall
    | readdir node index entry => exact readdir_rest hcall (hname node index entry rfl)
    | finddir node name file =>
      rcases finddir_made hcall with ⟨-, rfl⟩ | ⟨-, hmade⟩
      · exact fun _ _ => rfl
      · exact hmade.rest

/-- A step is a call that returns. -/
theorem vfsStep_cases (h : vfsStep n code s op = some s') : ∃ r b,
    (op.prog n code (objectAt s.mem op.place) s.mem).1 = some (r, b) ∧
      s' = { mem := storeObject b op.place, nodes := nodesAfter s (storeObject b op.place) r op } := by
  obtain ⟨r, hcall, rfl⟩ := Option.map_eq_some_iff.1 h
  obtain ⟨⟨r, b⟩, hval, rfl⟩ := Option.map_eq_some_iff.1 hcall
  exact ⟨r, b, hval, rfl⟩

/-- **One step** leaves everything as it is but its place. -/
theorem vfsStep_kept (hs : read32 s.mem ext2Initrd = base + 1024) (hop : VfsOpOk n m₀ base s op)
    (h : vfsStep n code s op = some s') {x : UInt32} (hx : op.room ≤ (x - op.place).toNat) :
    s'.mem x = s.mem x := by
  obtain ⟨r, b, hval, rfl⟩ := vfsStep_cases h
  refine storeObject_of_eq (prog_rest hval (fun node index entry he ent hent => ?_) _ hx)
  rw [hs] at hent
  exact hop.name node index entry he ent hent

/-- What is somebody's is not at the place. -/
theorem VfsOpOk.far (hop : VfsOpOk n m₀ base s op) {x : UInt32} (hx : ¬ Unclaimed m₀ base s x) :
    op.room ≤ (x - op.place).toNat := by
  by_contra hlt
  exact hx (hop.place x (Nat.lt_of_not_le hlt))

theorem NodeAt.congr {m m' : Mem} {node : UInt32} {f : FileNode} (h : NodeAt code m node f)
    (hsame : ∀ x : UInt32, (x - node).toNat < 184 → m' x = m x) : NodeAt code m' node f := by
  have hget : ∀ g, fileT.get m' node g = fileT.get m node g := fun g => fileT.get_congr hsame g
  exact ⟨(hget _).trans h.flag, (hget _).trans h.number, (hget _).trans h.read,
    (hget _).trans h.write, (hget _).trans h.openFile, (hget _).trans h.close,
    (hget _).trans h.readdir, (hget _).trans h.finddir⟩

/-- The object that has been made a file is a node. -/
theorem FileMade.nodeAt (h : FileMade code fresh b) (file : UInt32) :
    NodeAt code (storeObject b file) file
      ⟨fileT.get (storeObject b file) file .flag,
        fileT.get (storeObject b file) file .inode, true⟩ where
  flag := rfl
  number := rfl
  read := (get_storeObject b file .read).trans h.read
  write := (get_storeObject b file .write).trans h.write
  openFile := (get_storeObject b file .openFile).trans h.openFile
  close := (get_storeObject b file .close).trans h.close
  readdir := (get_storeObject b file .readdir).trans h.readdir
  finddir := (get_storeObject b file .finddir).trans h.finddir

/-- The object that a call fills in was no node's. -/
theorem VfsOpOk.nodes_place (hop : VfsOpOk n m₀ base s op) (hroom : 0 < op.room) :
    s.nodes op.place = none := by
  have hzero : (op.place - op.place).toNat = 0 := by
    rw [UInt32.sub_self]
    rfl
  cases hnode : s.nodes op.place with
  | none => rfl
  | some f =>
    have hfree : Unclaimed m₀ base s op.place := hop.place op.place (by rwa [hzero])
    have hfar := hfree.2.2 op.place f hnode
    rw [hzero] at hfar
    exact absurd hfar (by decide)

/-- What a step does to the nodes: nothing, or there is one more, an object that has been made a
file. -/
theorem vfsStep_nodes (hop : VfsOpOk n m₀ base s op) (h : vfsStep n code s op = some s') :
    s'.nodes = s.nodes ∨ ∃ file f, s.nodes file = none ∧ NodeAt code s'.mem file f ∧
      s'.nodes = Function.update s.nodes file (some f) := by
  obtain ⟨r, b, hval, rfl⟩ := vfsStep_cases h
  cases op with
  | finddir node name file =>
    by_cases hr : r = 0
    · exact Or.inl (if_pos hr)
    · obtain ⟨rfl, hmade⟩ : r = file ∧ FileMade code (objectAt s.mem file) b := by
        rcases prog_cases hval with ⟨hzero, -⟩ | hcall
        · exact absurd hzero hr
        · exact (finddir_made hcall).resolve_left fun hnull => hr hnull.1
      have hnone : s.nodes r = none := hop.nodes_place (show 0 < 184 by decide)
      exact Or.inr ⟨r, _, hnone, hmade.nodeAt r, if_neg hr⟩
  | read node offset size buffer => exact Or.inl rfl
  | write node offset size buffer => exact Or.inl rfl
  | openFile node read write => exact Or.inl rfl
  | close node => exact Or.inl rfl
  | readdir node index entry => exact Or.inl rfl

theorem vfsStep_nodes_kept (hop : VfsOpOk n m₀ base s op) (h : vfsStep n code s op = some s')
    {node : UInt32} {f : FileNode} (hnode : s.nodes node = some f) : s'.nodes node = some f := by
  rcases vfsStep_nodes hop h with hsame | ⟨file, g, hnone, -, hnodes⟩
  · rw [hsame]
    exact hnode
  · rw [hnodes, Function.update_of_ne]
    · exact hnode
    · rintro rfl
      rw [hnone] at hnode
      cases hnode

theorem vfsStep_nodes_new (hop : VfsOpOk n m₀ base s op) (h : vfsStep n code s op = some s')
    {node : UInt32} {f : FileNode} (hnode : s'.nodes node = some f) :
    s.nodes node = some f ∨ NodeAt code s'.mem node f := by
  rcases vfsStep_nodes hop h with hsame | ⟨file, g, -, hat, hnodes⟩
  · rw [hsame] at hnode
    exact Or.inl hnode
  · rw [hnodes] at hnode
    by_cases hfile : node = file
    · subst hfile
      rw [Function.update_self] at hnode
      obtain rfl := Option.some.inj hnode
      exact Or.inr hat
    · rw [Function.update_of_ne hfile] at hnode
      exact Or.inl hnode

/-- **Every call keeps everything intact.** -/
theorem VfsIntact.step (h : VfsIntact code m₀ base s) (hop : VfsOpOk n m₀ base s op)
    (hs : vfsStep n code s op = some s') : VfsIntact code m₀ base s' := by
  have hkept : ∀ x, ¬ Unclaimed m₀ base s x → s'.mem x = s.mem x := fun x hx =>
    vfsStep_kept h.superblock hop hs (hop.far hx)
  refine ⟨?_, fun x hx => ?_, fun node f hnode => ?_⟩
  · rw [← h.superblock]
    refine read32_congr fun i hi => hkept _ fun hfree => ?_
    have hfar := hfree.1
    rw [show ext2Initrd + i - ext2Initrd = i by grind] at hfar
    omega
  · rw [hkept x fun hfree => hfree.2.1 hx]
    exact h.image x hx
  · rcases vfsStep_nodes_new hop hs hnode with hold | hnew
    · refine (h.nodes node f hold).congr fun x hx => hkept x fun hfree => ?_
      have hfar := hfree.2.2 node f hold
      omega
    · exact hnew

/-- **No call goes astray.** -/
theorem VfsIntact.callsInitrd (h : VfsIntact code m₀ base s) (hnode : s.nodes op.node ≠ none) :
    op.CallsInitrd code s := by
  obtain ⟨f, hf⟩ := Option.ne_none_iff_exists'.1 hnode
  have hat := h.nodes _ f hf
  cases op with
  | read node offset size buffer =>
    have hread : fileT.get s.mem node .read = if f.readable = true then code.read else 0 := hat.read
    by_cases hreadable : f.readable = true
    · rw [if_pos hreadable] at hread
      exact Or.inr (congrArg some hread.symm)
    · rw [if_neg hreadable] at hread
      exact Or.inl hread
  | write node offset size buffer => exact Or.inl hat.write
  | openFile node read write => exact Or.inl hat.openFile
  | close node => exact Or.inl hat.close
  | readdir node index entry => exact Or.inr (congrArg some hat.readdir.symm)
  | finddir node name file => exact Or.inr (congrArg some hat.finddir.symm)

end Call

/-! ### Mounting -/

/-- The state after `initrd_initialize`, with the root for a node. -/
def vfsStart (mem : Mem) (root : UInt32) : VfsState where
  mem := mem
  nodes a := if a = root then some ⟨fileT.get mem root .flag, 2, false⟩ else none

/-- `ext2_initrd` is no part of the image, and the object for the root is neither of the one nor of
the other. -/
structure MountRoom (m₀ : Mem) (base root : UInt32) : Prop where
  pointer : ∀ x, InImage m₀ base x → 4 ≤ (x - ext2Initrd).toNat
  root : ∀ x, (x - root).toNat < 184 → 4 ≤ (x - ext2Initrd).toNat ∧ ¬ InImage m₀ base x

section Mount

variable {mem mem' m₀ : Mem} {code : ReadBy.InitrdCode} {base root : UInt32}

theorem get_set_root (m : Mem) (f g : FileField) (v : UInt32) :
    fileT.get (fileT.set m root f v) root g = if g = f then v else fileT.get m root g := by
  rw [fileT.get_set m f g v fun h => absurd rfl h]
  simp only [true_and]

/-- **Mounting** makes the root a node and leaves the image alone, but for its inode size. -/
theorem mount_intact (hmagic : Superblock.magic mem (base + 1024) = 0xEF53)
    (hroom : MountRoom (mounted mem base) base root)
    (h : initrdInitialize code base root mem = some mem') :
    VfsIntact code (mounted mem base) base (vfsStart mem' root) := by
  unfold initrdInitialize at h
  rw [ext2SuperblockGet_eq hmagic] at h
  obtain ⟨inode, -, hmem⟩ := Option.map_eq_some_iff.1 h
  have hfar : ∀ x : UInt32, 184 ≤ (x - root).toNat →
      mem' x = write32 (mounted mem base) ext2Initrd (base + 1024) x := by
    intro x hx
    have hname : ∀ i : UInt32, i.toNat < 184 → x ≠ root + i := by
      rintro i hi rfl
      rw [show root + i - root = i by grind] at hx
      omega
    have h0 := hname 0 (by decide)
    rw [UInt32.add_zero] at h0
    rw [← hmem]
    simp only [fileT.set_of_far _ _ _ hx, Function.update_of_ne h0,
      Function.update_of_ne (hname 1 (by decide))]
  refine ⟨?_, fun x hx => ?_, fun node f hnode => ?_⟩
  · rw [← read32_write32_same (mounted mem base) ext2Initrd (base + 1024)]
    refine read32_congr fun i hi => hfar _ ?_
    by_contra hlt
    have hoff := (hroom.root _ (Nat.lt_of_not_le hlt)).1
    rw [show ext2Initrd + i - ext2Initrd = i by grind] at hoff
    omega
  · show mem' x = _
    rw [hfar x, write32_of_far _ _ _ (hroom.pointer x hx)]
    by_contra hlt
    exact (hroom.root x (Nat.lt_of_not_le hlt)).2 hx
  · have hnode' : (if node = root then some ⟨fileT.get mem' root .flag, 2, false⟩ else none) =
        some f := hnode
    split at hnode'
    · rename_i hroot
      subst hroot
      obtain rfl := Option.some.inj hnode'
      show NodeAt code mem' node _
      rw [← hmem]
      refine ⟨rfl, ?_, ?_, ?_, ?_, ?_, ?_, ?_⟩ <;> simp [get_set_root]
    · cases hnode'

end Mount

/-! ### Runs of calls -/

section Runs

variable {mem mem' m₀ : Mem} {code : ReadBy.InitrdCode} {base root : UInt32} {n : ℕ} {fresh : Buffer}
  {s s' : VfsState} {op : VfsOp}

theorem VfsIntact.run (h : VfsIntact code m₀ base s) (ops : List VfsOp)
    (hops : Permitted (vfsStep n code) (VfsOpOk n m₀ base) s ops) :
    AllStates (vfsStep n code) (VfsIntact code m₀ base) s ops :=
  allStates_of_permitted (fun _ _ _ hs hop hstep => hs.step hop hstep) ops s h hops

/-- **Nothing is ever damaged.**  After an image has been mounted, through any calls in any order, the
image stays as it was, every node that has been handed out keeps its type, its inode number and the
functions of the initrd, and a call on one comes back at once or goes to the right one of these. -/
theorem vfs_run (hmagic : Superblock.magic mem (base + 1024) = 0xEF53)
    (hroom : MountRoom (mounted mem base) base root)
    (hmount : initrdInitialize code base root mem = some mem') (ops : List VfsOp)
    (hops : Permitted (vfsStep n code) (VfsOpOk n (mounted mem base) base) (vfsStart mem' root) ops) :
    AllStates (vfsStep n code)
      (fun s => VfsIntact code (mounted mem base) base s ∧
        ∀ op : VfsOp, s.nodes op.node ≠ none → op.CallsInitrd code s)
      (vfsStart mem' root) ops :=
  ((mount_intact hmagic hroom hmount).run ops hops).imp fun _ hs => ⟨hs, fun _ => hs.callsInitrd⟩

/-- The nodes that have been handed out stay. -/
theorem run_nodes {ops : List VfsOp}
    (hops : Permitted (vfsStep n code) (VfsOpOk n m₀ base) s ops)
    (hrun : run (vfsStep n code) s ops = some s') {node : UInt32} {f : FileNode}
    (hnode : s.nodes node = some f) : s'.nodes node = some f := by
  induction ops generalizing s with
  | nil =>
    cases hrun
    exact hnode
  | cons op ops ih =>
    obtain ⟨hop, hrest⟩ := hops
    rw [run_cons] at hrun
    obtain ⟨t, ht, hrun⟩ := Option.bind_eq_some_iff.1 hrun
    exact ih (hrest t ht) hrun (vfsStep_nodes_kept hop ht hnode)

/-- The name that `vfs_finddir` is given is the same string in both memories. -/
def VfsOp.SameName (m m' : Mem) : VfsOp → Prop
  | .finddir _ name _ => ∃ xs, StringAt m name xs ∧ StringAt m' name xs
  | _ => True

/-- What a node and the image decide is the same as long as these are. -/
theorem agrees_prog (hs : VfsIntact code m₀ base s) (hs' : VfsIntact code m₀ base s') {f : FileNode}
    (hnode : s.nodes op.node = some f) (hnode' : s'.nodes op.node = some f)
    (hname : op.SameName s.mem s'.mem) : Agrees s.mem s'.mem (op.prog n code fresh) := by
  have hat := hs.nodes _ f hnode
  have hat' := hs'.nodes _ f hnode'
  have hflag : nodeFlag s'.mem op.node = nodeFlag s.mem op.node := hat'.flag.trans hat.flag.symm
  have hnumber : ReadBy.nodeInode s'.mem op.node = ReadBy.nodeInode s.mem op.node :=
    hat'.number.trans hat.number.symm
  have hfield : fileT.get s'.mem op.node op.field = fileT.get s.mem op.node op.field := by
    cases op with
    | read node offset size buffer => exact hat'.read.trans hat.read.symm
    | write node offset size buffer => exact hat'.write.trans hat.write.symm
    | openFile node read write => exact hat'.openFile.trans hat.openFile.symm
    | close node => exact hat'.close.trans hat.close.symm
    | readdir node index entry => exact hat'.readdir.trans hat.readdir.symm
    | finddir node name file => exact hat'.finddir.trans hat.finddir.symm
  unfold VfsOp.prog
  refine (agrees_peek (g := fun mem => nodeFlag mem op.node) hflag).bind fun _ => ?_
  refine (agrees_peek (g := fun mem => fileT.get mem op.node op.field) hfield).bind fun _ => ?_
  refine (agrees_pure _).ite (Agrees.ite ?_ agrees_trap)
  refine (agrees_peek (g := fun mem => read32 mem ext2Initrd)
    (hs'.superblock.trans hs.superblock.symm)).bind fun sb => ?_
  cases op with
  | read node offset size buffer =>
    refine Agrees.bind ?_ fun _ => agrees_pure _
    exact (agrees_peek hnumber).bind fun _ => (agrees_inodeGet _ _).bind fun _ =>
      agrees_read _ _ _ _ _ _
  | write node offset size buffer => exact agrees_trap
  | openFile node read write => exact agrees_trap
  | close node => exact agrees_trap
  | readdir node index entry =>
    refine (agrees_peek hnumber).bind fun _ => (agrees_inodeGet _ _).bind fun _ => ?_
    refine (agrees_direntryGet _ _ _ _).bind fun _ => (agrees_pure _).ite ?_
    exact (agrees_load16 _).bind fun _ => (agrees_memcpyFrom _ _ _).bind fun _ =>
      (agrees_load16 _).bind fun _ => (agrees_load32 _).bind fun _ => agrees_pure _
  | finddir node name file =>
    obtain ⟨xs, hxs, hxs'⟩ := hname
    refine (agrees_peek hnumber).bind fun _ => (agrees_inodeGet _ _).bind fun _ => ?_
    refine (agrees_inodeblockGet _ _ _).bind fun _ => (agrees_pure _).ite ?_
    refine (agrees_load16 _).bind fun _ => (agrees_pure _).ite (Agrees.loop (fun index => ?_) n 0)
    refine (agrees_load32 _).bind fun _ => Agrees.ite ?_ (agrees_pure _)
    refine (agrees_entryMatches hxs hxs' _).bind fun _ => Agrees.ite ?_ ?_
    · exact (agrees_found _ _ _ _ _).bind fun _ => agrees_pure _
    · exact (agrees_load16 _).bind fun _ => agrees_pure _

/-- **The same call has the same answer.**  A call that reads nothing outside the image returns the
same, and fills in the same, before and after any other calls. -/
theorem vfs_again (hmagic : Superblock.magic mem (base + 1024) = 0xEF53)
    (hroom : MountRoom (mounted mem base) base root)
    (hmount : initrdInitialize code base root mem = some mem') (ops ops' : List VfsOp)
    (hops : Permitted (vfsStep n code) (VfsOpOk n (mounted mem base) base) (vfsStart mem' root)
      (ops ++ ops'))
    (hrun : run (vfsStep n code) (vfsStart mem' root) ops = some s)
    (hrun' : run (vfsStep n code) s ops' = some s') (hnode : s.nodes op.node ≠ none)
    (hname : op.SameName s.mem s'.mem)
    (hin : Within (InImage (mounted mem base) base) (op.prog n code fresh) s.mem) :
    (op.prog n code fresh s'.mem).1 = (op.prog n code fresh s.mem).1 := by
  have hall := (mount_intact hmagic hroom hmount).run (ops ++ ops') hops
  have hs := AllStates.of_run ops ops' hall hrun
  have hboth : run (vfsStep n code) (vfsStart mem' root) (ops ++ ops') = some s' := by
    rw [run_append, hrun]
    exact hrun'
  have hs' : VfsIntact code (mounted mem base) base s' := by
    refine AllStates.of_run (ops ++ ops') [] ?_ hboth
    rw [List.append_nil]
    exact hall
  obtain ⟨f, hf⟩ := Option.ne_none_iff_exists'.1 hnode
  have hf' := run_nodes (permitted_append ops ops' hops hrun) hrun' hf
  refine agrees_prog hs hs' hf hf' hname fun r hr i hi => ?_
  have hx := hin r hr i hi
  show s'.mem _ = s.mem _
  rw [hs'.image _ hx, hs.image _ hx]

end Runs

/-! ### With a look at each pointer -/

/-- The call as one in which every null pointer is a trap. -/
def VfsOp.checked (code : ReadBy.InitrdCode) (fresh : Buffer) : VfsOp → Option VfsCall
  | read _ offset size buffer => some (.read offset size (if buffer = 0 then none else some fresh))
  | write _ _ _ _ => none
  | openFile _ _ _ => none
  | close _ => none
  | readdir _ index entry => some (.readdir index entry fresh)
  | finddir _ name file => some (.finddir name code file fresh)

section Checked

variable {m₀ : Mem} {code : ReadBy.InitrdCode} {base : UInt32} {n : ℕ} {fresh : Buffer} {s : VfsState}
  {op : VfsOp} {call : VfsCall}

theorem checked_admits (hcall : op.checked code fresh = some call) (mem : Mem) :
    call.Admits mem op.node ↔
      ¬ (op.onDirectory = true ∧ nodeFlag mem op.node &&& 0x7 ≠ 2 ∨
        fileT.get mem op.node op.field = 0) := by
  cases op with
  | read node offset size buffer =>
    cases hcall
    show read32 mem (node + 156) ≠ 0 ↔ ¬ (false = true ∧ _ ∨ read32 mem (node + 156) = 0)
    simp only [Bool.false_eq_true, false_and, false_or, ne_eq]
  | readdir node index entry =>
    cases hcall
    show nodeFlag mem node &&& 0x7 = 2 ∧ read32 mem (node + 172) ≠ 0 ↔
      ¬ (true = true ∧ nodeFlag mem node &&& 0x7 ≠ 2 ∨ read32 mem (node + 172) = 0)
    simp only [true_and, not_or, not_not, ne_eq]
  | finddir node name file =>
    cases hcall
    show nodeFlag mem node &&& 0x7 = 2 ∧ read32 mem (node + 176) ≠ 0 ↔
      ¬ (true = true ∧ nodeFlag mem node &&& 0x7 ≠ 2 ∨ read32 mem (node + 176) = 0)
    simp only [true_and, not_or, not_not, ne_eq]
  | write node offset size buffer => cases hcall
  | openFile node read write => cases hcall
  | close node => cases hcall

theorem checked_initrd_refines (hcall : op.checked code fresh = some call) (superblock : UInt32)
    (mem : Mem) : Refines (call.initrd superblock op.node n)
      (op.initrd n code fresh superblock >>= fun r => pure r.1) mem := by
  cases op with
  | read node offset size buffer =>
    cases hcall
    intro a ha
    obtain ⟨r, hr, hra⟩ := Option.bind_eq_some_iff.1 (bind_val.symm.trans ha)
    have hread : (ReadBy.initrdRead n node offset size (if buffer = 0 then none else some fresh)
        superblock mem).1 = some r :=
      ((Refines.refl _ mem).bind fun _ => (Refines.refl _ mem).bind fun _ =>
        checked_read_refines _ _ _ _ _ _) r hr
    rw [bind_val, VfsOp.initrd, bind_val, hread]
    exact hra
  | readdir node index entry =>
    cases hcall
    exact (checked_readdir_refines _ _ _ _ _ _).bind fun _ => Refines.refl _ mem
  | finddir node name file =>
    cases hcall
    exact (checked_finddir_refines _ _ _ _ _ _ _).bind fun _ => Refines.refl _ mem
  | write node offset size buffer => cases hcall
  | openFile node read write => cases hcall
  | close node => cases hcall

/-- What a call returns if every null pointer is a trap, it returns in every state of a run. -/
theorem VfsIntact.checked_refines (h : VfsIntact code m₀ base s) (hnode : s.nodes op.node ≠ none)
    (hcall : op.checked code fresh = some call) :
    Refines (call.prog (base + 1024) op.node n) (op.prog n code fresh >>= fun r => pure r.1)
      s.mem := by
  intro a ha
  simp only [VfsCall.prog, bind_val, peek_val, Option.bind_some, decide_eq_true_eq, ite_val,
    checked_admits hcall] at ha
  simp only [VfsOp.prog, bind_val, peek_val, Option.bind_some, ite_val, h.superblock]
  by_cases hback : op.onDirectory = true ∧ nodeFlag s.mem op.node &&& 0x7 ≠ 2 ∨
      fileT.get s.mem op.node op.field = 0
  · rw [if_neg (not_not.2 hback)] at ha
    rw [if_pos hback]
    exact ha
  · rw [if_pos hback] at ha
    have hto : op.function code = some (fileT.get s.mem op.node op.field) :=
      (h.callsInitrd hnode).resolve_left fun hzero => hback (Or.inr hzero)
    rw [if_neg hback, if_pos hto, ← bind_val]
    exact checked_initrd_refines hcall _ _ a ha

end Checked

/-! ### A directory with one entry -/

/-- Inode 2 of `imageNames`, where the reader looks for it, as a directory like inode 1. -/
def imageRoot : Mem :=
  write32 (write32 (write16 imageNames 0x101480 0x4000) 0x101484 1024) 0x1014A8 10

def imageMounted : Mem := (initrdInitialize ⟨1, 2, 3⟩ 0x100000 0x1000 imageRoot).getD imageRoot

theorem imageMounted_eq :
    initrdInitialize ⟨1, 2, 3⟩ 0x100000 0x1000 imageRoot = some imageMounted := by
  obtain ⟨m, hm⟩ := Option.isSome_iff_exists.1
    (show (initrdInitialize ⟨1, 2, 3⟩ 0x100000 0x1000 imageRoot).isSome = true by decide)
  rw [imageMounted, hm]
  rfl

theorem inImage_imageRoot (x : UInt32) :
    InImage (mounted imageRoot 0x100000) 0x100000 x ↔ (x - 0x100000).toNat < 65536 := by
  have hlength : imageLength (mounted imageRoot 0x100000) 0x100000 = 65536 := by decide
  rw [InImage, hlength]

theorem imageRoot_room : MountRoom (mounted imageRoot 0x100000) 0x100000 0x1000 where
  pointer x hx := by
    rw [inImage_imageRoot] at hx
    simp only [ext2Initrd, UInt32.toNat_sub, UInt32.reduceToNat] at *
    omega
  root x hx := by
    rw [inImage_imageRoot]
    simp only [ext2Initrd, UInt32.toNat_sub, UInt32.reduceToNat] at *
    omega

/-- A call of `vfs_finddir` on the root, for a file to be made at 0x2000. -/
theorem findRoot_ok (n : ℕ) : VfsOpOk n (mounted imageRoot 0x100000) 0x100000
    (vfsStart imageMounted 0x1000) (.finddir 0x1000 0x200010 0x2000) where
  node := by
    show (if (0x1000 : UInt32) = 0x1000 then some _ else none) ≠ none
    rw [if_pos rfl]
    exact Option.some_ne_none _
  place x hx := by
    have hx' : (x - 0x2000).toNat < 184 := hx
    refine ⟨?_, ?_, fun node f hnode => ?_⟩
    · simp only [ext2Initrd, UInt32.toNat_sub, UInt32.reduceToNat] at *
      omega
    · rw [inImage_imageRoot]
      simp only [UInt32.toNat_sub, UInt32.reduceToNat] at *
      omega
    · have hnode' : (if node = 0x1000 then some _ else none) = some f := hnode
      split at hnode'
      · rename_i hroot
        subst hroot
        simp only [UInt32.toNat_sub, UInt32.reduceToNat] at *
        omega
      · cases hnode'
  name := nofun

theorem vfs_run_find : AllStates (vfsStep 4 ⟨1, 2, 3⟩)
    (fun s => VfsIntact ⟨1, 2, 3⟩ (mounted imageRoot 0x100000) 0x100000 s ∧
      ∀ op : VfsOp, s.nodes op.node ≠ none → op.CallsInitrd ⟨1, 2, 3⟩ s)
    (vfsStart imageMounted 0x1000) [.finddir 0x1000 0x200010 0x2000] :=
  vfs_run (by decide) imageRoot_room imageMounted_eq _ ⟨findRoot_ok 4, fun _ _ => trivial⟩

/-- A call of `vfs_readdir` on the root reads nothing outside the image. -/
theorem readRoot_within : Within (InImage (mounted imageRoot 0x100000) 0x100000)
    ((VfsOp.readdir 0x1000 0 0x3000).prog 4 ⟨1, 2, 3⟩ fun _ => 0)
    (vfsStart imageMounted 0x1000).mem := by
  have hreads : ∀ r ∈
      ((VfsOp.readdir 0x1000 0 0x3000).prog 4 ⟨1, 2, 3⟩ (fun _ => 0) imageMounted).2,
      ∀ i < r.size, (r.addr + UInt32.ofNat i - 0x100000).toNat < 65536 := by
    decide +kernel
  intro r hr i hi
  rw [inImage_imageRoot]
  exact hreads r hr i hi

theorem findRoot_returns : ∃ s', run (vfsStep 4 ⟨1, 2, 3⟩) (vfsStart imageMounted 0x1000)
    [.finddir 0x1000 0x200010 0x2000] = some s' :=
  Option.isSome_iff_exists.1 (by decide +kernel)

/-- The first entry of the root is the same before and after a file has been looked up. -/
theorem vfs_again_readdir : ∃ s', run (vfsStep 4 ⟨1, 2, 3⟩) (vfsStart imageMounted 0x1000)
      [.finddir 0x1000 0x200010 0x2000] = some s' ∧
    ((VfsOp.readdir 0x1000 0 0x3000).prog 4 ⟨1, 2, 3⟩ (fun _ => 0) s'.mem).1 =
      ((VfsOp.readdir 0x1000 0 0x3000).prog 4 ⟨1, 2, 3⟩ (fun _ => 0)
        (vfsStart imageMounted 0x1000).mem).1 := by
  obtain ⟨s', hs'⟩ := findRoot_returns
  have hstart : run (vfsStep 4 ⟨1, 2, 3⟩) (vfsStart imageMounted 0x1000) [] =
      some (vfsStart imageMounted 0x1000) := rfl
  exact ⟨s', hs', vfs_again (by decide +kernel) imageRoot_room imageMounted_eq []
    [.finddir 0x1000 0x200010 0x2000] ⟨findRoot_ok 4, fun _ _ => trivial⟩ hstart hs'
    (findRoot_ok 4).node trivial readRoot_within⟩

end CometOS
