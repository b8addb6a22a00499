import CometOS.Lib.Critical
import CometOS.LiballocRun

/-!
# The interrupt flag around the kernel heap

`liballoc_lock` is `cli` and `liballoc_unlock` is `sti`.  The functions of `liballoc.c` again, here
access by access: each read and write of `l_initialized`, `l_freePages`, `l_completePages` and of a
boundary tag's field is on record with the interrupt flag at that moment.  What `calloc` and `realloc`
store through the pointer that `malloc` has returned is not: it is the client's memory, or after a failed
`malloc` whatever lies at address 0.  With paging on, `kmalloc`, `kfree`, `kcalloc` and `krealloc` are
`malloc`, `free`, `calloc` and `realloc`.

Each function does what its counterpart without the record does, and accesses the heap with
interrupts off only.  They are on again whenever a call that has taken the lock returns.
-/

namespace CometOS

open ByteMemory Critical Word32

/-- `liballoc_memcpy`: whole words, then the bytes left over. -/
def liballocMemcpy (s1 s2 n : UInt32) (m : Mem) : Mem :=
  let words := n.toNat / 4
  let m := Loop.forUp (fun i m =>
    write32 m (s1 + 4 * UInt32.ofNat i) (read32 m (s2 + 4 * UInt32.ofNat i))) 0 words m
  Loop.forUp (fun i m => Function.update m (s1 + UInt32.ofNat i) (m (s2 + UInt32.ofNat i)))
    (4 * words) (n.toNat % 4) m

namespace Liballoc

/-- `liballoc_memset(s, 0, n)`. -/
def clearBytes (ptr n : UInt32) (s : Liballoc) : Liballoc :=
  { s with mem := fill s.mem ptr 0 n.toNat }

/-- `liballoc_memcpy(s1, s2, n)`. -/
def copyBytes (s1 s2 n : UInt32) (s : Liballoc) : Liballoc :=
  { s with mem := liballocMemcpy s1 s2 n s.mem }

end Liballoc

/-- What a call of the heap answers: the pointer it returns, the run it has been given by
`liballoc_alloc` and the run it has given to `liballoc_free`. -/
structure HeapAnswer where
  ptr : UInt32
  obtained : Option PageRun
  released : Option PageRun

/-- The kinds of data the lock protects. -/
inductive HeapCell
  | initialized
  | freePages (index : ℤ)
  | completePages (index : ℤ)
  | tag (tag : UInt32) (field : TagField)
  deriving DecidableEq

abbrev HeapProg := Prog Liballoc HeapCell

/-- The answer of `malloc`. -/
def MallocResult.answer (r : MallocResult) : HeapAnswer × Liballoc :=
  (⟨r.ptr, r.obtained, none⟩, r.heap)

/-- The answer of `free`. -/
def freeAnswer (r : Liballoc × Option PageRun) : HeapAnswer × Liballoc := (⟨0, none, r.2⟩, r.1)

/-- `calloc`. -/
def calloc (liballocAlloc : UInt32 → UInt32) (nobj size : UInt32) (s : Liballoc) :
    Option (HeapAnswer × Liballoc) :=
  let realSize := nobj * size
  (malloc liballocAlloc realSize s).map fun r =>
    (r.answer.1, r.heap.clearBytes r.ptr realSize)

/-- `realloc`. -/
def realloc (liballocAlloc : UInt32 → UInt32) (p size : UInt32) (s : Liballoc) :
    Option (HeapAnswer × Liballoc) :=
  if size = 0 then (free p s).map freeAnswer
  else if p = 0 then (malloc liballocAlloc size s).map MallocResult.answer
  else
    let realSize := s.get (p - 32) .size
    let realSize := if realSize > size then size else realSize
    (malloc liballocAlloc size s).bind fun r =>
      (free p (r.heap.copyBytes r.ptr p realSize)).map fun q =>
        ({ r.answer.1 with released := q.2 }, q.1)

/-! ### `liballoc.c`, access by access -/

namespace Stepwise

open Prog

def get (tag : UInt32) (f : TagField) : HeapProg UInt32 := read (.tag tag f) fun s => s.get tag f

def set (tag : UInt32) (f : TagField) (v : UInt32) : HeapProg Unit :=
  write (.tag tag f) fun s => s.set tag f v

def index (tag : UInt32) : HeapProg ℤ := read (.tag tag .index) fun s => s.index tag

def setIndex (tag : UInt32) (i : ℤ) : HeapProg Unit :=
  write (.tag tag .index) fun s => s.setIndex tag i

def freePage (i : ℤ) : HeapProg UInt32 := read (.freePages i) fun s => s.freePages i

def setFreePage (i : ℤ) (tag : UInt32) : HeapProg Unit :=
  write (.freePages i) fun s => { s with freePages := Function.update s.freePages i tag }

def completePage (i : ℤ) : HeapProg ℤ := read (.completePages i) fun s => s.completePages i

def setCompletePage (i n : ℤ) : HeapProg Unit :=
  write (.completePages i) fun s => { s with completePages := Function.update s.completePages i n }

def insertTag (tag : UInt32) (index : ℤ) : HeapProg Unit := do
  let realIndex ← (if index < 0 then do
      let realSize ← get tag .realSize
      pure (atLeastMinexp (getexp (realSize - 32)))
    else pure index)
  setIndex tag realIndex
  let head ← freePage realIndex
  when (head ≠ 0) do
    let head ← freePage realIndex
    set head .prev tag
    let head ← freePage realIndex
    set tag .next head
  setFreePage realIndex tag

def removeTag (tag : UInt32) : HeapProg Unit := do
  let i ← index tag
  let head ← freePage i
  when (head = tag) do
    let i ← index tag
    let next ← get tag .next
    setFreePage i next
  let prev ← get tag .prev
  when (prev ≠ 0) do
    let prev ← get tag .prev
    let next ← get tag .next
    set prev .next next
  let next ← get tag .next
  when (next ≠ 0) do
    let next ← get tag .next
    let prev ← get tag .prev
    set next .prev prev
  set tag .next 0
  set tag .prev 0
  setIndex tag (-1)

def meltLeft (tag : UInt32) : HeapProg UInt32 := do
  let left ← get tag .splitLeft
  let leftSize ← get left .realSize
  let realSize ← get tag .realSize
  set left .realSize (leftSize + realSize)
  let right ← get tag .splitRight
  set left .splitRight right
  let right ← get tag .splitRight
  when (right ≠ 0) do
    let right ← get tag .splitRight
    set right .splitLeft left
  pure left

def absorbRight (tag : UInt32) : HeapProg UInt32 := do
  let right ← get tag .splitRight
  removeTag right
  let realSize ← get tag .realSize
  let rightSize ← get right .realSize
  set tag .realSize (realSize + rightSize)
  let next ← get right .splitRight
  set tag .splitRight next
  let next ← get right .splitRight
  when (next ≠ 0) do
    let next ← get right .splitRight
    set next .splitLeft tag
  pure tag

def splitTag (tag : UInt32) : HeapProg UInt32 := do
  let realSize ← get tag .realSize
  let size ← get tag .size
  let remainder := realSize - 32 - size
  let size ← get tag .size
  let newTag := tag + 32 + size
  set newTag .magic liballocMagic
  set newTag .realSize remainder
  set newTag .next 0
  set newTag .prev 0
  set newTag .splitLeft tag
  let right ← get tag .splitRight
  set newTag .splitRight right
  let right ← get newTag .splitRight
  when (right ≠ 0) do
    let right ← get newTag .splitRight
    set right .splitLeft newTag
  set tag .splitRight newTag
  let realSize ← get tag .realSize
  let newSize ← get newTag .realSize
  set tag .realSize (realSize - newSize)
  insertTag newTag (-1)
  pure newTag

/-- `allocate_new_tag`, once `liballoc_alloc` has returned `tag` and it is not `NULL`. -/
def initNewTag (tag size : UInt32) : HeapProg Unit := do
  set tag .magic liballocMagic
  set tag .size size
  set tag .realSize (pagesFor size * 4096)
  setIndex tag (-1)
  set tag .next 0
  set tag .prev 0
  set tag .splitLeft 0
  set tag .splitRight 0

def liballocInit : HeapProg Unit := do
  let initialized ← read .initialized fun s => s.initialized
  when (initialized = false) do
    forUp (fun i => do
      setFreePage i 0
      setCompletePage i 0) 0 32
    write .initialized fun s => { s with initialized := true }

/-- There is a tag, and it has not enough space. -/
def tooSmall (size tag : UInt32) : HeapProg Bool :=
  if tag ≠ 0 then do
    let realSize ← get tag .realSize
    pure (decide (¬ size + 32 ≤ realSize - 32))
  else pure false

/-- The loop of `malloc`. -/
def mallocSearch (size tag : UInt32) : HeapProg UInt32 :=
  whileLoop (tooSmall size) (fun tag => get tag .next) (2 ^ 32) tag

/-- The end of `malloc`, up to the unlocking. -/
def mallocFinish (tag size : UInt32) : HeapProg UInt32 := do
  set tag .size size
  let realSize ← get tag .realSize
  let remainder := realSize - size - 32 * 2
  when (0 < remainder.toInt32) (when (0 ≤ getexp remainder) do
    let _ ← splitTag tag
    pure ())
  pure (tag + 32)

/-- `malloc` with no tag found. -/
def mallocNew (liballocAlloc : UInt32 → UInt32) (size : UInt32) : HeapProg HeapAnswer :=
  let run := liballocAlloc (pagesFor size)
  if run = 0 then do
    sti
    pure ⟨0, none, none⟩
  else do
    initNewTag run size
    -- `index` is computed again from this, and not used any more
    let _ ← get run .realSize
    let ptr ← mallocFinish run size
    sti
    pure ⟨ptr, some ⟨run, pagesFor size⟩, none⟩

/-- `malloc` with the tag it has found in list `index`. -/
def mallocFound (index : ℤ) (tag size : UInt32) : HeapProg HeapAnswer := do
  removeTag tag
  let left ← get tag .splitLeft
  when (left = 0) do
    let right ← get tag .splitRight
    when (right = 0) do
      let complete ← completePage index
      setCompletePage index (complete - 1)
  let ptr ← mallocFinish tag size
  sti
  pure ⟨ptr, none, none⟩

def malloc (liballocAlloc : UInt32 → UInt32) (size : UInt32) : HeapProg HeapAnswer := do
  cli
  liballocInit
  let index := atLeastMinexp (getexp size + 0)
  let head ← freePage index
  let tag ← mallocSearch size head
  if tag = 0 then mallocNew liballocAlloc size else mallocFound index tag size

/-- There is a neighbour on this side, and it is free. -/
def freeNeighbour (side : TagField) (tag : UInt32) : HeapProg Bool := do
  let next ← get tag side
  if next ≠ 0 then do
    let next ← get tag side
    let i ← index next
    pure (decide (0 ≤ i))
  else pure false

def meltLeftLoop (tag : UInt32) : HeapProg UInt32 :=
  whileLoop (freeNeighbour .splitLeft)
    (fun tag => do
      let tag ← meltLeft tag
      removeTag tag
      pure tag) (2 ^ 32) tag

def absorbRightLoop (tag : UInt32) : HeapProg UInt32 :=
  whileLoop (freeNeighbour .splitRight) absorbRight (2 ^ 32) tag

/-- A whole, empty block? -/
def wholeRun (tag : UInt32) : HeapProg Bool := do
  let left ← get tag .splitLeft
  if left = 0 then do
    let right ← get tag .splitRight
    pure (decide (right = 0))
  else pure false

/-- `free` puts the tag back into list `index`. -/
def freeInsert (tag : UInt32) (index : ℤ) : HeapProg (Option PageRun) := do
  insertTag tag index
  sti
  pure none

/-- The end of `free`: what goes to `liballoc_free`, if something does. -/
def freeFinish (tag : UInt32) : HeapProg (Option PageRun) := do
  let realSize ← get tag .realSize
  let index := atLeastMinexp (getexp (realSize - 32))
  let whole ← wholeRun tag
  if whole = true then do
    let complete ← completePage index
    if complete = maxComplete then do
      let realSize ← get tag .realSize
      let _ ← get tag .realSize
      sti
      pure (some ⟨tag, pagesOf realSize⟩)
    else do
      let complete ← completePage index
      setCompletePage index (complete + 1)
      freeInsert tag index
  else freeInsert tag index

def free (ptr : UInt32) : HeapProg HeapAnswer :=
  if ptr = 0 then pure ⟨0, none, none⟩
  else do
    cli
    let tag := ptr - 32
    let magic ← get tag .magic
    if magic ≠ liballocMagic then do
      sti
      pure ⟨0, none, none⟩
    else do
      let tag ← meltLeftLoop tag
      let tag ← absorbRightLoop tag
      let released ← freeFinish tag
      pure ⟨0, none, released⟩

def calloc (liballocAlloc : UInt32 → UInt32) (nobj size : UInt32) : HeapProg HeapAnswer := do
  let realSize := nobj * size
  let p ← malloc liballocAlloc realSize
  modify (Liballoc.clearBytes p.ptr realSize)
  pure p

def realloc (liballocAlloc : UInt32 → UInt32) (p size : UInt32) : HeapProg HeapAnswer :=
  if size = 0 then free p
  else if p = 0 then malloc liballocAlloc size
  else do
    cli
    let realSize ← get (p - 32) .size
    sti
    let realSize := if realSize > size then size else realSize
    let ptr ← malloc liballocAlloc size
    modify (Liballoc.copyBytes ptr.ptr p realSize)
    let done ← free p
    pure { ptr with released := done.released }

/-! ### Each function computes what its counterpart does -/

theorem guarded_get (tag : UInt32) (f : TagField) :
    Guarded false false (get tag f) fun s => some (s.get tag f, s) :=
  Guarded.read _ _

theorem guarded_set (tag : UInt32) (f : TagField) (v : UInt32) :
    Guarded false false (set tag f v) fun s => some ((), s.set tag f v) :=
  Guarded.write _ _

theorem guarded_index (tag : UInt32) :
    Guarded false false (index tag) fun s => some (s.index tag, s) :=
  Guarded.read _ _

theorem guarded_setIndex (tag : UInt32) (i : ℤ) :
    Guarded false false (setIndex tag i) fun s => some ((), s.setIndex tag i) :=
  Guarded.write _ _

theorem guarded_freePage (i : ℤ) :
    Guarded false false (freePage i) fun s => some (s.freePages i, s) :=
  Guarded.read _ _

theorem guarded_setFreePage (i : ℤ) (tag : UInt32) :
    Guarded false false (setFreePage i tag) fun s =>
      some ((), { s with freePages := Function.update s.freePages i tag }) :=
  Guarded.write _ _

theorem guarded_completePage (i : ℤ) :
    Guarded false false (completePage i) fun s => some (s.completePages i, s) :=
  Guarded.read _ _

theorem guarded_setCompletePage (i n : ℤ) :
    Guarded false false (setCompletePage i n) fun s =>
      some ((), { s with completePages := Function.update s.completePages i n }) :=
  Guarded.write _ _

theorem guarded_insertTag (tag : UInt32) (i : ℤ) :
    Guarded false false (insertTag tag i) fun s => some ((), CometOS.insertTag tag i s) := by
  have hindex : Guarded false false
      (if i < 0 then do
        let realSize ← get tag .realSize
        pure (atLeastMinexp (getexp (realSize - 32)))
      else pure i)
      fun s => some (if i < 0 then atLeastMinexp (getexp (s.get tag .realSize - 32)) else i, s) := by
    refine (Guarded.ite (fun _ => (guarded_get tag .realSize).andThen fun realSize =>
      Guarded.pure (atLeastMinexp (getexp (realSize - 32)))) fun _ =>
      Guarded.pure i).congr fun s => ?_
    split
    · rfl
    · rfl
  refine Guarded.congr (hindex.andThen fun realIndex =>
    (guarded_setIndex tag realIndex).andThen fun _ =>
    (guarded_freePage realIndex).andThen fun _ =>
    (Guarded.when ((guarded_freePage realIndex).andThen fun head =>
      (guarded_set head .prev tag).andThen fun _ =>
      (guarded_freePage realIndex).andThen fun head =>
      guarded_set tag .next head)).andThen fun _ =>
    guarded_setFreePage realIndex tag) fun s => ?_
  rfl

theorem guarded_removeTag (tag : UInt32) :
    Guarded false false (removeTag tag) fun s => some ((), CometOS.removeTag tag s) :=
  ((guarded_index tag).andThen fun i =>
    (guarded_freePage i).andThen fun _ =>
    (Guarded.when ((guarded_index tag).andThen fun i =>
      (guarded_get tag .next).andThen fun next =>
      guarded_setFreePage i next)).andThen fun _ =>
    (guarded_get tag .prev).andThen fun _ =>
    (Guarded.when ((guarded_get tag .prev).andThen fun prev =>
      (guarded_get tag .next).andThen fun next =>
      guarded_set prev .next next)).andThen fun _ =>
    (guarded_get tag .next).andThen fun _ =>
    (Guarded.when ((guarded_get tag .next).andThen fun next =>
      (guarded_get tag .prev).andThen fun prev =>
      guarded_set next .prev prev)).andThen fun _ =>
    (guarded_set tag .next 0).andThen fun _ =>
    (guarded_set tag .prev 0).andThen fun _ =>
    guarded_setIndex tag (-1)).congr fun _ => rfl

theorem guarded_meltLeft (tag : UInt32) :
    Guarded false false (meltLeft tag) fun s => some (CometOS.meltLeft tag s) :=
  ((guarded_get tag .splitLeft).andThen fun left =>
    (guarded_get left .realSize).andThen fun leftSize =>
    (guarded_get tag .realSize).andThen fun realSize =>
    (guarded_set left .realSize (leftSize + realSize)).andThen fun _ =>
    (guarded_get tag .splitRight).andThen fun right =>
    (guarded_set left .splitRight right).andThen fun _ =>
    (guarded_get tag .splitRight).andThen fun _ =>
    (Guarded.when ((guarded_get tag .splitRight).andThen fun right =>
      guarded_set right .splitLeft left)).andThen fun _ =>
    Guarded.pure left).congr fun _ => rfl

theorem guarded_absorbRight (tag : UInt32) :
    Guarded false false (absorbRight tag) fun s => some (CometOS.absorbRight tag s) :=
  ((guarded_get tag .splitRight).andThen fun right =>
    (guarded_removeTag right).andThen fun _ =>
    (guarded_get tag .realSize).andThen fun realSize =>
    (guarded_get right .realSize).andThen fun rightSize =>
    (guarded_set tag .realSize (realSize + rightSize)).andThen fun _ =>
    (guarded_get right .splitRight).andThen fun next =>
    (guarded_set tag .splitRight next).andThen fun _ =>
    (guarded_get right .splitRight).andThen fun _ =>
    (Guarded.when ((guarded_get right .splitRight).andThen fun next =>
      guarded_set next .splitLeft tag)).andThen fun _ =>
    Guarded.pure tag).congr fun _ => rfl

theorem guarded_splitTag (tag : UInt32) :
    Guarded false false (splitTag tag) fun s => some (CometOS.splitTag tag s) :=
  ((guarded_get tag .realSize).andThen fun realSize =>
    (guarded_get tag .size).andThen fun size =>
    (guarded_get tag .size).andThen fun size' =>
    (guarded_set (tag + 32 + size') .magic liballocMagic).andThen fun _ =>
    (guarded_set (tag + 32 + size') .realSize (realSize - 32 - size)).andThen fun _ =>
    (guarded_set (tag + 32 + size') .next 0).andThen fun _ =>
    (guarded_set (tag + 32 + size') .prev 0).andThen fun _ =>
    (guarded_set (tag + 32 + size') .splitLeft tag).andThen fun _ =>
    (guarded_get tag .splitRight).andThen fun right =>
    (guarded_set (tag + 32 + size') .splitRight right).andThen fun _ =>
    (guarded_get (tag + 32 + size') .splitRight).andThen fun _ =>
    (Guarded.when ((guarded_get (tag + 32 + size') .splitRight).andThen fun right =>
      guarded_set right .splitLeft (tag + 32 + size'))).andThen fun _ =>
    (guarded_set tag .splitRight (tag + 32 + size')).andThen fun _ =>
    (guarded_get tag .realSize).andThen fun realSize =>
    (guarded_get (tag + 32 + size') .realSize).andThen fun newSize =>
    (guarded_set tag .realSize (realSize - newSize)).andThen fun _ =>
    (guarded_insertTag (tag + 32 + size') (-1)).andThen fun _ =>
    Guarded.pure (tag + 32 + size')).congr fun _ => rfl

theorem guarded_initNewTag (tag size : UInt32) :
    Guarded false false (initNewTag tag size) fun s => some ((), CometOS.initNewTag tag size s) :=
  ((guarded_set tag .magic liballocMagic).andThen fun _ =>
    (guarded_set tag .size size).andThen fun _ =>
    (guarded_set tag .realSize (pagesFor size * 4096)).andThen fun _ =>
    (guarded_setIndex tag (-1)).andThen fun _ =>
    (guarded_set tag .next 0).andThen fun _ =>
    (guarded_set tag .prev 0).andThen fun _ =>
    (guarded_set tag .splitLeft 0).andThen fun _ =>
    guarded_set tag .splitRight 0).congr fun _ => rfl

theorem guarded_liballocInit :
    Guarded false false liballocInit fun s => some ((), CometOS.liballocInit s) := by
  refine ((Guarded.read _ _).andThen fun initialized =>
    Guarded.when ((Guarded.forUp (fun i => (guarded_setFreePage i 0).andThen fun _ =>
      guarded_setCompletePage i 0) 32 0).andThen fun _ => Guarded.write _ _)).congr fun s => ?_
  unfold CometOS.liballocInit
  cases s.initialized
  · rfl
  · rfl

/-- The test of `malloc`'s loop. -/
theorem guarded_tooSmall (size tag : UInt32) :
    Guarded false false (tooSmall size tag) fun s =>
      some (decide (tag ≠ 0 ∧ ¬ size + 32 ≤ s.get tag .realSize - 32), s) := by
  refine (Guarded.ite (fun _ => (guarded_get tag .realSize).andThen fun realSize =>
    Guarded.pure (decide (¬ size + 32 ≤ realSize - 32))) fun _ => Guarded.pure false).congr
    fun s => ?_
  by_cases h : tag = 0
  · simp only [h, ne_eq, not_true_eq_false, if_false, false_and, decide_false]
  · simp only [h, ne_eq, not_false_eq_true, if_true, true_and]

theorem guarded_mallocSearch (size tag : UInt32) :
    Guarded false false (mallocSearch size tag) fun s =>
      (CometOS.mallocSearch size s tag).map fun tag => (tag, s) := by
  have hloop : ∀ n, Guarded false false
      (whileLoop (tooSmall size) (fun tag => get tag .next) n tag) fun s =>
        Loop.whileLoop (fun p : UInt32 × Liballoc =>
            decide (p.1 ≠ 0 ∧ ¬ size + 32 ≤ p.2.get p.1 .realSize - 32))
          (fun p => some (p.2.get p.1 .next, p.2)) n (tag, s) := by
    intro n
    exact Guarded.whileLoop (guarded_tooSmall size) (fun tag => guarded_get tag .next) n tag
  refine Guarded.congr (hloop (2 ^ 32)) fun s => ?_
  rw [Loop.whileLoop_snd fun (s : Liballoc) tag => s.get tag .next]
  unfold CometOS.mallocSearch
  with_reducible rfl

theorem guarded_mallocFinish (tag size : UInt32) :
    Guarded false false (mallocFinish tag size) fun s =>
      some (CometOS.mallocFinish tag size s) :=
  ((guarded_set tag .size size).andThen fun _ =>
    (guarded_get tag .realSize).andThen fun _ =>
    (Guarded.when (Guarded.when ((guarded_splitTag tag).pair.andThen fun _ =>
      Guarded.pure ()))).andThen fun _ =>
    Guarded.pure (tag + 32)).congr fun _ => rfl

theorem guarded_mallocNew (liballocAlloc : UInt32 → UInt32) (size : UInt32) :
    Guarded false true (mallocNew liballocAlloc size) fun s =>
      if liballocAlloc (pagesFor size) = 0 then some (⟨0, none, none⟩, s)
      else
        let r := CometOS.mallocFinish (liballocAlloc (pagesFor size)) size
          (CometOS.initNewTag (liballocAlloc (pagesFor size)) size s)
        some (⟨r.1, some ⟨liballocAlloc (pagesFor size), pagesFor size⟩, none⟩, r.2) := by
  unfold mallocNew
  generalize liballocAlloc (pagesFor size) = run
  apply Guarded.ite
  · intro _
    exact Guarded.sti.andThen fun _ => Guarded.pure (⟨0, none, none⟩ : HeapAnswer)
  · intro _
    exact (guarded_initNewTag run size).andThen fun _ =>
      (guarded_get run .realSize).andThen fun _ =>
      (guarded_mallocFinish run size).pair.andThen fun ptr =>
      Guarded.sti.andThen fun _ =>
      Guarded.pure (⟨ptr, some ⟨run, pagesFor size⟩, none⟩ : HeapAnswer)

theorem guarded_mallocFound (i : ℤ) (tag size : UInt32) :
    Guarded false true (mallocFound i tag size) fun s =>
      let s := CometOS.removeTag tag s
      let s :=
        if s.get tag .splitLeft = 0 ∧ s.get tag .splitRight = 0 then
          { s with completePages := Function.update s.completePages i (s.completePages i - 1) }
        else s
      let r := CometOS.mallocFinish tag size s
      some (⟨r.1, none, none⟩, r.2) := by
  refine Guarded.congr ((guarded_removeTag tag).andThen fun _ =>
    (guarded_get tag .splitLeft).andThen fun _ =>
    (Guarded.when ((guarded_get tag .splitRight).andThen fun _ =>
      Guarded.when ((guarded_completePage i).andThen fun complete =>
        guarded_setCompletePage i (complete - 1)))).andThen fun _ =>
    (guarded_mallocFinish tag size).pair.andThen fun ptr =>
    Guarded.sti.andThen fun _ =>
    Guarded.pure (⟨ptr, none, none⟩ : HeapAnswer)) fun s => ?_
  simp only [ite_and]

/-- **`malloc`** unlocks on each way out. -/
theorem guarded_malloc (entry : Bool) (liballocAlloc : UInt32 → UInt32) (size : UInt32) :
    Guarded entry true (malloc liballocAlloc size) fun s =>
      (CometOS.malloc liballocAlloc size s).map MallocResult.answer := by
  refine Guarded.congr (Guarded.cli.andThen fun _ =>
    guarded_liballocInit.andThen fun _ =>
    (guarded_freePage (atLeastMinexp (getexp size + 0))).andThen fun head =>
    (guarded_mallocSearch size head).bind fun tag =>
    Guarded.ite (fun _ => guarded_mallocNew liballocAlloc size) fun _ =>
      guarded_mallocFound (atLeastMinexp (getexp size + 0)) tag size) fun s => ?_
  simp only [CometOS.malloc]
  cases CometOS.mallocSearch size (CometOS.liballocInit s)
    ((CometOS.liballocInit s).freePages (atLeastMinexp (getexp size + 0))) with
  | none => rfl
  | some tag =>
    simp only [Option.map_some, Option.bind_some]
    by_cases htag : tag = 0
    · by_cases hrun : liballocAlloc (pagesFor size) = 0
      · simp only [if_pos htag, if_pos hrun, MallocResult.answer]
      · simp only [if_pos htag, if_neg hrun, MallocResult.answer]
    · simp only [if_neg htag, MallocResult.answer]

/-! ### `free` -/

theorem guarded_freeNeighbour (side : TagField) (tag : UInt32) :
    Guarded false false (freeNeighbour side tag) fun s =>
      some (decide (s.get tag side ≠ 0 ∧ 0 ≤ s.index (s.get tag side)), s) := by
  refine Guarded.congr ((guarded_get tag side).andThen fun next =>
    Guarded.ite (c := next ≠ 0) (fun _ => (guarded_get tag side).andThen fun next =>
      (guarded_index next).andThen fun i => Guarded.pure (decide (0 ≤ i))) fun _ =>
      Guarded.pure false) fun s => ?_
  by_cases h : s.get tag side = 0
  · simp only [h, ne_eq, not_true_eq_false, if_false, false_and, decide_false]
  · simp only [h, ne_eq, not_false_eq_true, if_true, true_and]

theorem guarded_meltLeftLoop (tag : UInt32) :
    Guarded false false (meltLeftLoop tag) (CometOS.meltLeftLoop tag) := by
  have hbody : ∀ tag, Guarded false false
      (do
        let tag ← meltLeft tag
        removeTag tag
        pure tag)
      fun s => some ((CometOS.meltLeft tag s).1,
        CometOS.removeTag (CometOS.meltLeft tag s).1 (CometOS.meltLeft tag s).2) := fun tag =>
    ((guarded_meltLeft tag).pair.andThen fun tag =>
      (guarded_removeTag tag).andThen fun _ => Guarded.pure tag).congr fun _ => rfl
  have hloop := fun n => Guarded.whileLoop (guarded_freeNeighbour .splitLeft) hbody n tag
  refine Guarded.congr (hloop (2 ^ 32)) fun s => ?_
  unfold CometOS.meltLeftLoop
  with_reducible rfl

theorem guarded_absorbRightLoop (tag : UInt32) :
    Guarded false false (absorbRightLoop tag) (CometOS.absorbRightLoop tag) := by
  have hloop := fun n =>
    Guarded.whileLoop (guarded_freeNeighbour .splitRight) guarded_absorbRight n tag
  refine Guarded.congr (hloop (2 ^ 32)) fun s => ?_
  unfold CometOS.absorbRightLoop
  with_reducible rfl

theorem guarded_wholeRun (tag : UInt32) :
    Guarded false false (wholeRun tag) fun s =>
      some (decide (s.get tag .splitLeft = 0 ∧ s.get tag .splitRight = 0), s) := by
  refine Guarded.congr ((guarded_get tag .splitLeft).andThen fun left =>
    Guarded.ite (c := left = 0) (fun _ => (guarded_get tag .splitRight).andThen fun right =>
      Guarded.pure (decide (right = 0))) fun _ => Guarded.pure false) fun s => ?_
  by_cases h : s.get tag .splitLeft = 0
  · simp only [h, if_true, true_and]
  · simp only [h, if_false, false_and, decide_false]

theorem guarded_freeInsert (tag : UInt32) (i : ℤ) :
    Guarded false true (freeInsert tag i) fun s => some (none, CometOS.insertTag tag i s) :=
  (guarded_insertTag tag i).andThen fun _ =>
    Guarded.sti.andThen fun _ => Guarded.pure (none : Option PageRun)

theorem guarded_freeFinish (tag : UInt32) :
    Guarded false true (freeFinish tag) fun s =>
      some ((CometOS.freeFinish tag s).2, (CometOS.freeFinish tag s).1) := by
  refine Guarded.congr ((guarded_get tag .realSize).andThen fun realSize =>
    (guarded_wholeRun tag).andThen fun whole =>
    Guarded.ite (c := whole = true)
      (fun _ => (guarded_completePage (atLeastMinexp (getexp (realSize - 32)))).andThen
        fun complete => Guarded.ite (c := complete = maxComplete)
          (fun _ => (guarded_get tag .realSize).andThen fun realSize =>
            (guarded_get tag .realSize).andThen fun _ =>
            Guarded.sti.andThen fun _ => Guarded.pure (some (⟨tag, pagesOf realSize⟩ : PageRun)))
          fun _ => (guarded_completePage (atLeastMinexp (getexp (realSize - 32)))).andThen
            fun complete => (guarded_setCompletePage _ (complete + 1)).andThen fun _ =>
            guarded_freeInsert tag _)
      fun _ => guarded_freeInsert tag _) fun s => ?_
  simp only [CometOS.freeFinish, decide_eq_true_eq]
  split
  · split
    · rfl
    · rfl
  · rfl

/-- **`free`** of anything but `NULL` unlocks on each way out. -/
theorem guarded_free (entry : Bool) {ptr : UInt32} (hptr : ptr ≠ 0) :
    Guarded entry true (free ptr) fun s => (CometOS.free ptr s).map freeAnswer := by
  unfold free
  rw [if_neg hptr]
  refine Guarded.congr (Guarded.cli.andThen fun _ =>
    (guarded_get (ptr - 32) .magic).andThen fun magic =>
    Guarded.ite (c := magic ≠ liballocMagic)
      (fun _ => Guarded.sti.andThen fun _ => Guarded.pure (⟨0, none, none⟩ : HeapAnswer))
      fun _ => (guarded_meltLeftLoop (ptr - 32)).bind fun tag =>
        (guarded_absorbRightLoop tag).bind fun tag =>
        (guarded_freeFinish tag).andThen fun released =>
        Guarded.pure (⟨0, none, released⟩ : HeapAnswer)) fun s => ?_
  simp only [CometOS.free, if_neg hptr]
  by_cases hmagic : s.get (ptr - 32) .magic ≠ liballocMagic
  · simp only [if_pos hmagic]
    rfl
  · simp only [if_neg hmagic]
    cases CometOS.meltLeftLoop (ptr - 32) s with
    | none => rfl
    | some p =>
      simp only [Option.bind_some]
      cases CometOS.absorbRightLoop p.1 p.2 with
      | none => rfl
      | some q => rfl

/-- `free(NULL)` does nothing. -/
theorem guarded_free_null (entry : Bool) :
    Guarded entry entry (free 0) fun s => (CometOS.free 0 s).map freeAnswer :=
  Guarded.pure (⟨0, none, none⟩ : HeapAnswer)

/-! ### `calloc` and `realloc` -/

theorem guarded_calloc (entry : Bool) (liballocAlloc : UInt32 → UInt32) (nobj size : UInt32) :
    Guarded entry true (calloc liballocAlloc nobj size) (CometOS.calloc liballocAlloc nobj size) := by
  refine Guarded.congr ((guarded_malloc entry liballocAlloc (nobj * size)).bind fun p =>
    (Guarded.modify (Liballoc.clearBytes p.ptr (nobj * size))).andThen fun _ =>
    Guarded.pure p) fun s => ?_
  simp only [CometOS.calloc]
  cases CometOS.malloc liballocAlloc (nobj * size) s with
  | none => rfl
  | some r => rfl

/-- **`realloc`** of a block to a size that is not zero takes the lock three times, and unlocks each
time. -/
theorem guarded_realloc_block (entry : Bool) (liballocAlloc : UInt32 → UInt32) {p size : UInt32}
    (hsize : size ≠ 0) (hp : p ≠ 0) :
    Guarded entry true (realloc liballocAlloc p size) (CometOS.realloc liballocAlloc p size) := by
  unfold realloc
  rw [if_neg hsize, if_neg hp]
  refine Guarded.congr (Guarded.cli.andThen fun _ =>
    (guarded_get (p - 32) .size).andThen fun realSize =>
    Guarded.sti.andThen fun _ =>
    (guarded_malloc true liballocAlloc size).bind fun ptr =>
    (Guarded.modify (Liballoc.copyBytes ptr.ptr p (if realSize > size then size else realSize))).andThen
      fun _ => (guarded_free true hp).bind fun done =>
      Guarded.pure ({ ptr with released := done.released } : HeapAnswer)) fun s => ?_
  simp only [CometOS.realloc, if_neg hsize, if_neg hp]
  cases CometOS.malloc liballocAlloc size s with
  | none => rfl
  | some r =>
    simp only [Option.map_some, Option.bind_some, MallocResult.answer]
    cases CometOS.free p (r.heap.copyBytes r.ptr p
      (if s.get (p - 32) .size > size then size else s.get (p - 32) .size)) with
    | none => rfl
    | some q => rfl

end Stepwise

/-! ### Calls of the heap -/

inductive HeapCall
  | malloc (size : UInt32)
  | free (ptr : UInt32)
  | calloc (nobj size : UInt32)
  | realloc (p size : UInt32)

namespace HeapCall

def prog (liballocAlloc : UInt32 → UInt32) : HeapCall → HeapProg HeapAnswer
  | .malloc size => Stepwise.malloc liballocAlloc size
  | .free ptr => Stepwise.free ptr
  | .calloc nobj size => Stepwise.calloc liballocAlloc nobj size
  | .realloc p size => Stepwise.realloc liballocAlloc p size

/-- The call without the record. -/
def result (liballocAlloc : UInt32 → UInt32) : HeapCall → Liballoc → Option (HeapAnswer × Liballoc)
  | .malloc size, s => (CometOS.malloc liballocAlloc size s).map MallocResult.answer
  | .free ptr, s => (CometOS.free ptr s).map freeAnswer
  | .calloc nobj size, s => CometOS.calloc liballocAlloc nobj size s
  | .realloc p size, s => CometOS.realloc liballocAlloc p size s

/-- `free(NULL)` and `realloc(NULL, 0)`, which return before `liballoc_lock`. -/
def TakesNoLock : HeapCall → Prop
  | .malloc _ => False
  | .free ptr => ptr = 0
  | .calloc _ _ => False
  | .realloc p size => p = 0 ∧ size = 0

/-- The machine after the call, from heap `s` with the interrupt flag at `flag`. -/
def after (liballocAlloc : UInt32 → UInt32) (call : HeapCall) (s : Liballoc) (flag : Bool) :
    Option HeapAnswer × Machine Liballoc HeapCell :=
  call.prog liballocAlloc ⟨s, flag, []⟩

theorem guarded_locked (liballocAlloc : UInt32 → UInt32) {call : HeapCall} (h : ¬ call.TakesNoLock)
    (entry : Bool) : Guarded entry true (call.prog liballocAlloc) (call.result liballocAlloc) := by
  cases call with
  | malloc size => exact Stepwise.guarded_malloc entry liballocAlloc size
  | free ptr => exact Stepwise.guarded_free entry h
  | calloc nobj size => exact Stepwise.guarded_calloc entry liballocAlloc nobj size
  | realloc p size =>
    by_cases hsize : size = 0
    · have hp : p ≠ 0 := fun hp => h ⟨hp, hsize⟩
      simp only [prog, Stepwise.realloc, if_pos hsize]
      refine (Stepwise.guarded_free entry hp).congr fun s => ?_
      simp only [result, CometOS.realloc, if_pos hsize]
    · by_cases hp : p = 0
      · simp only [prog, Stepwise.realloc, if_neg hsize, if_pos hp]
        refine (Stepwise.guarded_malloc entry liballocAlloc size).congr fun s => ?_
        simp only [result, CometOS.realloc, if_neg hsize, if_pos hp]
      · exact Stepwise.guarded_realloc_block entry liballocAlloc hsize hp

theorem guarded_unlocked (liballocAlloc : UInt32 → UInt32) {call : HeapCall} (h : call.TakesNoLock)
    (entry : Bool) : Guarded entry entry (call.prog liballocAlloc) (call.result liballocAlloc) := by
  cases call with
  | malloc size => exact h.elim
  | free ptr =>
    obtain rfl : ptr = 0 := h
    exact Stepwise.guarded_free_null entry
  | calloc nobj size => exact h.elim
  | realloc p size =>
    obtain ⟨rfl, rfl⟩ : p = 0 ∧ size = 0 := h
    exact Stepwise.guarded_free_null entry

/-- **The record changes nothing**: a call returns what it returns without it, and leaves the heap
it leaves without it. -/
theorem after_computes (liballocAlloc : UInt32 → UInt32) (call : HeapCall) (s : Liballoc)
    (flag : Bool) :
    (call.after liballocAlloc s flag).1 = (call.result liballocAlloc s).map Prod.fst ∧
      ∀ r, call.result liballocAlloc s = some r →
        (call.after liballocAlloc s flag).2.state = r.2 := by
  by_cases hlock : call.TakesNoLock
  · exact (guarded_unlocked liballocAlloc hlock flag).computes s
  · exact (guarded_locked liballocAlloc hlock flag).computes s

end HeapCall

end CometOS
