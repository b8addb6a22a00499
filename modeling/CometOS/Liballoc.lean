import CometOS.Lib.Loop
import CometOS.Lib.Record
import CometOS.Lib.Run

/-!
# The kernel heap (`liballoc.c`)

`malloc` and `free` keep a boundary tag in front of every piece of every run of pages they hold.  The
tags lie in memory, between the clients' bytes; the two arrays are objects of their own.  A pointer
is an address and `NULL` is 0.  A loop that is still running after `2 ^ 32` tests is `none`.

`LiballocSystem` adds the world around the heap: the runs that `liballoc_alloc` has handed out, the
results of `malloc` the clients still hold, and what they write.
-/

namespace CometOS

open ByteMemory Loop Record Run Word32

/-! ### Boundary tags -/

inductive TagField
  | magic
  | size
  | realSize
  | index
  | splitLeft
  | splitRight
  | next
  | prev
  deriving DecidableEq

/-- `struct boundary_tag`: eight words. -/
def boundaryTag : Layout TagField where
  offset
    | .magic => 0
    | .size => 4
    | .realSize => 8
    | .index => 12
    | .splitLeft => 16
    | .splitRight => 20
    | .next => 24
    | .prev => 28
  size := 32
  inside := by
    intro f
    cases f <;> decide
  apart := by
    intro f g h
    cases f <;> cases g <;> first | exact absurd rfl h | decide

/-- `LIBALLOC_MAGIC`. -/
def liballocMagic : UInt32 := 0xc001c0de

/-- `MAXCOMPLETE`. -/
def maxComplete : ℤ := 5

/-- What `liballoc.c` works on. -/
structure Liballoc where
  mem : Mem
  freePages : ℤ → UInt32
  completePages : ℤ → ℤ
  initialized : Bool

namespace Liballoc

/-- `tag->field`. -/
def get (s : Liballoc) (tag : UInt32) (f : TagField) : UInt32 := boundaryTag.get s.mem tag f

/-- `tag->field = v`. -/
def set (s : Liballoc) (tag : UInt32) (f : TagField) (v : UInt32) : Liballoc :=
  { s with mem := boundaryTag.set s.mem tag f v }

/-- `tag->index`, which is signed. -/
def index (s : Liballoc) (tag : UInt32) : ℤ := (s.get tag .index).toInt32.toInt

def setIndex (s : Liballoc) (tag : UInt32) (i : ℤ) : Liballoc :=
  s.set tag .index (Int32.ofInt i).toUInt32

end Liballoc

/-- The loop of `getexp`, with the number of tests left before `shift` reaches `MAXEXP`. -/
def getexpShift (size : UInt32) : ℕ → ℕ → ℕ
  | 0, shift => shift
  | n + 1, shift =>
    if size < 1 <<< UInt32.ofNat shift then shift else getexpShift size n (shift + 1)

/-- `getexp`: the exponent for `size`, -1 if it is below `1 << MINEXP`. -/
def getexp (size : UInt32) : ℤ :=
  if size < (1 : UInt32) <<< 8 then -1 else (getexpShift size 24 8 : ℤ) - 1

/-- `if ( index < MINEXP ) index = MINEXP;`. -/
def atLeastMinexp (index : ℤ) : ℤ := if index < 8 then 8 else index

/-- `insert_tag`. -/
def insertTag (tag : UInt32) (index : ℤ) (s : Liballoc) : Liballoc :=
  let realIndex :=
    if index < 0 then atLeastMinexp (getexp (s.get tag .realSize - 32)) else index
  let s := s.setIndex tag realIndex
  let s :=
    if s.freePages realIndex ≠ 0 then
      (s.set (s.freePages realIndex) .prev tag).set tag .next (s.freePages realIndex)
    else s
  { s with freePages := Function.update s.freePages realIndex tag }

/-- `remove_tag`. -/
def removeTag (tag : UInt32) (s : Liballoc) : Liballoc :=
  let s :=
    if s.freePages (s.index tag) = tag then
      { s with freePages := Function.update s.freePages (s.index tag) (s.get tag .next) }
    else s
  let s := if s.get tag .prev ≠ 0 then s.set (s.get tag .prev) .next (s.get tag .next) else s
  let s := if s.get tag .next ≠ 0 then s.set (s.get tag .next) .prev (s.get tag .prev) else s
  ((s.set tag .next 0).set tag .prev 0).setIndex tag (-1)

/-- `melt_left`. -/
def meltLeft (tag : UInt32) (s : Liballoc) : UInt32 × Liballoc :=
  let left := s.get tag .splitLeft
  let s := s.set left .realSize (s.get left .realSize + s.get tag .realSize)
  let s := s.set left .splitRight (s.get tag .splitRight)
  let s :=
    if s.get tag .splitRight ≠ 0 then s.set (s.get tag .splitRight) .splitLeft left else s
  (left, s)

/-- `absorb_right`. -/
def absorbRight (tag : UInt32) (s : Liballoc) : UInt32 × Liballoc :=
  let right := s.get tag .splitRight
  let s := removeTag right s
  let s := s.set tag .realSize (s.get tag .realSize + s.get right .realSize)
  let s := s.set tag .splitRight (s.get right .splitRight)
  let s :=
    if s.get right .splitRight ≠ 0 then s.set (s.get right .splitRight) .splitLeft tag else s
  (tag, s)

/-- `split_tag`. -/
def splitTag (tag : UInt32) (s : Liballoc) : UInt32 × Liballoc :=
  let remainder := s.get tag .realSize - 32 - s.get tag .size
  let newTag := tag + 32 + s.get tag .size
  let s := s.set newTag .magic liballocMagic
  let s := s.set newTag .realSize remainder
  let s := s.set newTag .next 0
  let s := s.set newTag .prev 0
  let s := s.set newTag .splitLeft tag
  let s := s.set newTag .splitRight (s.get tag .splitRight)
  let s :=
    if s.get newTag .splitRight ≠ 0 then s.set (s.get newTag .splitRight) .splitLeft newTag else s
  let s := s.set tag .splitRight newTag
  let s := s.set tag .realSize (s.get tag .realSize - s.get newTag .realSize)
  (newTag, insertTag newTag (-1) s)

/-! ### Allocation -/

/-- A run of pages: where it starts and how many there are. -/
structure PageRun where
  base : UInt32
  pages : UInt32
  deriving DecidableEq

/-- How many pages `allocate_new_tag` asks for. -/
def pagesFor (size : UInt32) : UInt32 :=
  let usage := size + 32
  let pages := if usage % 4096 ≠ 0 then usage / 4096 + 1 else usage / 4096
  if pages < 1 then 1 else pages

/-- `allocate_new_tag`, once `liballoc_alloc` has returned `tag` and it is not `NULL`. -/
def initNewTag (tag size : UInt32) (s : Liballoc) : Liballoc :=
  let s := s.set tag .magic liballocMagic
  let s := s.set tag .size size
  let s := s.set tag .realSize (pagesFor size * 4096)
  let s := s.setIndex tag (-1)
  let s := s.set tag .next 0
  let s := s.set tag .prev 0
  let s := s.set tag .splitLeft 0
  s.set tag .splitRight 0

/-- The arrays are cleared at the first call. -/
def liballocInit (s : Liballoc) : Liballoc :=
  if s.initialized then s
  else
    let s := forUp (fun i s =>
      { s with
        freePages := Function.update s.freePages i 0
        completePages := Function.update s.completePages i 0 }) 0 32 s
    { s with initialized := true }

/-- The loop of `malloc`: the first tag from `tag` on with enough space, 0 for none. -/
def mallocSearch (size : UInt32) (s : Liballoc) (tag : UInt32) : Option UInt32 :=
  whileLoop (fun tag => tag ≠ 0 ∧ ¬ size + 32 ≤ s.get tag .realSize - 32)
    (fun tag => some (s.get tag .next)) (2 ^ 32) tag

/-- The end of `malloc`: the tag is given the size, and what it has too much is split off. -/
def mallocFinish (tag size : UInt32) (s : Liballoc) : UInt32 × Liballoc :=
  let s := s.set tag .size size
  let remainder := s.get tag .realSize - size - 32 * 2
  let s :=
    if 0 < remainder.toInt32 then if 0 ≤ getexp remainder then (splitTag tag s).2 else s else s
  (tag + 32, s)

/-- What `malloc` returns, with the run it has been given by `liballoc_alloc` if it asked for one. -/
structure MallocResult where
  ptr : UInt32
  heap : Liballoc
  obtained : Option PageRun

/-- `malloc`; `liballocAlloc` is the answer of `liballoc_alloc` to each number of pages. -/
def malloc (liballocAlloc : UInt32 → UInt32) (size : UInt32) (s : Liballoc) :
    Option MallocResult :=
  let s := liballocInit s
  let index := atLeastMinexp (getexp size + 0)
  (mallocSearch size s (s.freePages index)).map fun tag =>
    if tag = 0 then
      let run := liballocAlloc (pagesFor size)
      if run = 0 then ⟨0, s, none⟩
      else
        let r := mallocFinish run size (initNewTag run size s)
        ⟨r.1, r.2, some ⟨run, pagesFor size⟩⟩
    else
      let s := removeTag tag s
      let s :=
        if s.get tag .splitLeft = 0 ∧ s.get tag .splitRight = 0 then
          { s with
            completePages := Function.update s.completePages index (s.completePages index - 1) }
        else s
      let r := mallocFinish tag size s
      ⟨r.1, r.2, none⟩

/-! ### Release -/

/-- `while ( (tag->split_left != NULL) && (tag->split_left->index >= 0) )`. -/
def meltLeftLoop (tag : UInt32) (s : Liballoc) : Option (UInt32 × Liballoc) :=
  whileLoop
    (fun p : UInt32 × Liballoc =>
      p.2.get p.1 .splitLeft ≠ 0 ∧ 0 ≤ p.2.index (p.2.get p.1 .splitLeft))
    (fun p =>
      let q := meltLeft p.1 p.2
      some (q.1, removeTag q.1 q.2)) (2 ^ 32) (tag, s)

/-- `while ( (tag->split_right != NULL) && (tag->split_right->index >= 0) )`. -/
def absorbRightLoop (tag : UInt32) (s : Liballoc) : Option (UInt32 × Liballoc) :=
  whileLoop
    (fun p : UInt32 × Liballoc =>
      p.2.get p.1 .splitRight ≠ 0 ∧ 0 ≤ p.2.index (p.2.get p.1 .splitRight))
    (fun p => some (absorbRight p.1 p.2)) (2 ^ 32) (tag, s)

/-- The number of pages `free` gives back with a whole run. -/
def pagesOf (realSize : UInt32) : UInt32 :=
  let pages := if realSize % 4096 ≠ 0 then realSize / 4096 + 1 else realSize / 4096
  if pages < 1 then 1 else pages

/-- The end of `free`: the melted tag goes back to its list, or its run to `liballoc_free`. -/
def freeFinish (tag : UInt32) (s : Liballoc) : Liballoc × Option PageRun :=
  let index := atLeastMinexp (getexp (s.get tag .realSize - 32))
  if s.get tag .splitLeft = 0 ∧ s.get tag .splitRight = 0 then
    if s.completePages index = maxComplete then (s, some ⟨tag, pagesOf (s.get tag .realSize)⟩)
    else
      let s := { s with
        completePages := Function.update s.completePages index (s.completePages index + 1) }
      (insertTag tag index s, none)
  else (insertTag tag index s, none)

/-- `free`, with the run it gives to `liballoc_free` if it does. -/
def free (ptr : UInt32) (s : Liballoc) : Option (Liballoc × Option PageRun) :=
  if ptr = 0 then some (s, none)
  else
    let tag := ptr - 32
    if s.get tag .magic ≠ liballocMagic then some (s, none)
    else
      (meltLeftLoop tag s).bind fun p =>
        (absorbRightLoop p.1 p.2).map fun q => freeFinish q.1 q.2

/-! ### The heap and its clients -/

/-- The heap; the runs `liballoc_alloc` has handed out and not been given back; the clients' results
of `malloc`, each with the size asked for; and the runs given to `liballoc_free` that were not held
with that base and that number of pages. -/
structure LiballocSystem where
  heap : Liballoc
  held : List PageRun
  live : List (UInt32 × UInt32)
  wrongFrees : List PageRun

/-- The arrays start out zero; what memory holds does not matter. -/
def LiballocSystem.start (mem : Mem) : LiballocSystem where
  heap := { mem, freePages := fun _ => 0, completePages := fun _ => 0, initialized := false }
  held := []
  live := []
  wrongFrees := []

inductive LiballocOp
  | malloc (size : UInt32) (liballocAlloc : UInt32 → UInt32)
  | free (ptr : UInt32)
  | write (addr : UInt32) (value : UInt8)

/-- The address after the run's last byte. -/
def PageRun.stop (r : PageRun) : ℕ := r.base.toNat + 4096 * r.pages.toNat

/-- `addr` is a byte of the run. -/
def PageRun.Holds (r : PageRun) (addr : UInt32) : Prop :=
  r.base.toNat ≤ addr.toNat ∧ addr.toNat < r.stop

/-- The two runs share no byte. -/
def PageRun.Apart (r r' : PageRun) : Prop := r.stop ≤ r'.base.toNat ∨ r'.stop ≤ r.base.toNat

/-- A run inside the address space that shares no byte with those held. -/
def FreshRun (held : List PageRun) (r : PageRun) : Prop :=
  r.stop ≤ 2 ^ 32 ∧ ∀ r' ∈ held, r.Apart r'

/-- What the clients and the page allocator may do: ask for less than `2 ^ 30` bytes and be answered
with `NULL` or a fresh run; free what they hold; write inside their payloads, or where the heap has
nothing. -/
def LiballocOp.Allowed (st : LiballocSystem) : LiballocOp → Prop
  | .malloc size liballocAlloc =>
    size.toNat < 2 ^ 30 ∧
      ∀ n, liballocAlloc n ≠ 0 → FreshRun st.held ⟨liballocAlloc n, n⟩
  | .free ptr => ptr = 0 ∨ ∃ size, (ptr, size) ∈ st.live
  | .write addr _ =>
    (∃ p ∈ st.live, (addr - p.1).toNat < p.2.toNat) ∨ ∀ r ∈ st.held, ¬ r.Holds addr

def liballocStep (st : LiballocSystem) : LiballocOp → Option LiballocSystem
  | .malloc size liballocAlloc =>
    (CometOS.malloc liballocAlloc size st.heap).map fun (r : MallocResult) =>
      { st with
        heap := r.heap
        held := r.obtained.toList ++ st.held
        live := if r.ptr = 0 then st.live else (r.ptr, size) :: st.live }
  | .free ptr =>
    (CometOS.free ptr st.heap).map fun r =>
      { heap := r.1
        held := st.held.filter fun run => some run ≠ r.2
        live := st.live.filter fun p => p.1 ≠ ptr
        wrongFrees := (r.2.toList.filter fun run => run ∉ st.held) ++ st.wrongFrees }
  | .write addr value =>
    some { st with heap := { st.heap with mem := Function.update st.heap.mem addr value } }

end CometOS
