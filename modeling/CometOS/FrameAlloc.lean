import CometOS.BitmapFind
import CometOS.Lib.Run
import CometOS.PagingTables

/-!
# Handing out frames

Runs of `frame_alloc` and `frame_free`.  A free frame is found and marked as long as there is one
that has an address.  When there is none the search looks at the word behind the bitmap, and its `-1`
is scaled to an address before it is tested: instead of `NULL` the frame behind the last, or the last
page of the address space, is returned, and a word outside the bitmap is marked.
-/

namespace CometOS

open Run Word32

/-! ### Runs -/

inductive FrameOp
  | alloc
  | free (frame : UInt32)

/-- The machine, and the frames that were handed out and have not been freed. -/
structure FrameRun where
  machine : Machine
  live : Finset UInt32

/-- Only a frame that was handed out may be freed. -/
def frameStep (r : FrameRun) : FrameOp → Option FrameRun
  | .alloc => (frameAlloc r.machine).map fun x =>
      ⟨x.2, if x.1 = 0 then r.live else insert x.1 r.live⟩
  | .free frame =>
      if frame ∈ r.live then some ⟨frameFree frame r.machine, r.live.erase frame⟩ else none

/-- Frame 0 is used, and so is each frame that is out. -/
structure FramesInv (r : FrameRun) : Prop where
  zero : r.machine.frameBitmap.words 0 ≠ 0
  aligned : ∀ frame ∈ r.live, PageAligned frame
  ne_zero : ∀ frame ∈ r.live, frame ≠ 0
  used : ∀ frame ∈ r.live, r.machine.frameBitmap.words (frame / 0x1000) ≠ 0

/-- All frames of the bitmap are used. -/
def Exhausted (m : Machine) : Prop :=
  ∀ i < m.frameBitmap.size.toNat, m.frameBitmap.words (UInt32.ofNat i) ≠ 0

/-- Frame `i`, which was free and is not out, is at `frame`; it has been marked, and nothing else has
changed. -/
structure FrameGiven (r : FrameRun) (frame : UInt32) (m' : Machine) (i : ℕ) : Prop where
  lt : i < r.machine.frameBitmap.size.toNat
  addr : frame.toNat = i * 0x1000
  free : r.machine.frameBitmap.words (UInt32.ofNat i) = 0
  fresh : frame ∉ r.live
  marked : m' = { r.machine with
    frameBitmap := bitmapEntrieSet (UInt32.ofNat i) 1 r.machine.frameBitmap }

/-- `frame_alloc` gives a free frame, or `NULL` and no change if there is none. -/
def AllocOk (r : FrameRun) : Prop :=
  ∃ frame m', frameAlloc r.machine = some (frame, m') ∧
    ((∃ i, FrameGiven r frame m' i) ∨ Exhausted r.machine ∧ frame = 0 ∧ m' = r.machine)

/-- What is asked of an operation. -/
def FrameOk (r : FrameRun) : FrameOp → Prop
  | .alloc => AllocOk r
  | .free _ => True

/-- A free frame that has an address. -/
def FreeFrame (m : Machine) : Prop :=
  ∃ i < m.frameBitmap.size.toNat, i < 2 ^ 20 ∧ m.frameBitmap.words (UInt32.ofNat i) = 0

/-- All frames are used, and what is done then comes to nothing: the word behind the bitmap is 0, the
frame behind the last is frame 0 again, and that was marked with a 1. -/
def WrapsToZero (m : Machine) : Prop :=
  Exhausted m ∧ m.frameBitmap.words m.frameBitmap.size = 0 ∧
    m.frameBitmap.size.toNat % 2 ^ 20 = 0 ∧ m.frameBitmap.words 0 = 1

/-- A frame is asked for only while there is one to give. -/
def FrameThere (r : FrameRun) : FrameOp → Prop
  | .alloc => FreeFrame r.machine ∨ WrapsToZero r.machine
  | .free _ => True

/-! ### One allocation -/

section Alloc

variable {m : Machine} {r : FrameRun}

theorem runIn_one {b : Bitmap} {value : UInt32} {i : ℕ} :
    RunIn b value i (1 : UInt32).toNat ↔ i < b.size.toNat ∧ b.words (UInt32.ofNat i) = value := by
  constructor
  · rintro ⟨hfit, hrun⟩
    exact ⟨hfit, hrun 0 Nat.one_pos⟩
  · rintro ⟨hlt, hword⟩
    refine ⟨hlt, fun x hx => ?_⟩
    obtain rfl : x = 0 := by
      have hx' : x < 1 := hx
      omega
    exact hword

theorem frameAlloc_of_find {i : UInt32} (h : bitmapEntrieFind 1 0 m.frameBitmap = some i) :
    frameAlloc m = some (i * 0x1000, frameSet (i * 0x1000) m) := by
  have hne : i * 0x1000 ≠ 0xFFFFFFFF := by
    intro he
    have haligned := pageAligned_mul i
    rw [he] at haligned
    exact absurd haligned (by decide)
  rw [frameAlloc, frameFind, h, Option.map_some, Option.map_some, if_neg hne]

theorem pageAddr_index {i : ℕ} (hi : i < 2 ^ 20) : pageAddr i / 0x1000 = UInt32.ofNat i :=
  eq_of_toNat ((pageAddr_div hi).trans (toNat_ofNat_of_lt (by omega)).symm)

/-- The first free frame is found. -/
theorem frameAlloc_of_free {i : ℕ} (hi : i < m.frameBitmap.size.toNat) (hi20 : i < 2 ^ 20)
    (hfree : m.frameBitmap.words (UInt32.ofNat i) = 0)
    (hfirst : ∀ j < i, m.frameBitmap.words (UInt32.ofNat j) ≠ 0) :
    frameAlloc m = some (pageAddr i, frameSet (pageAddr i) m) := by
  rw [← ofNat_mul_page hi20]
  exact frameAlloc_of_find (bitmapEntrieFind_first (by decide) (runIn_one.2 ⟨hi, hfree⟩)
    fun j hj hrun => hfirst j hj (runIn_one.1 hrun).2)

/-- The entry that a frame is looked for and found in: the first that is 0, the one behind the bitmap
included, or `-1`.  A bitmap of the largest size has no word behind it to stop at. -/
def NextFree (m : Machine) (i : UInt32) : Prop :=
  FindResult m.frameBitmap 0 1 i ∧ (m.frameBitmap.size = 0xFFFFFFFF → m.frameBitmap.words i = 0)

theorem nextFree_iff {i : UInt32} : NextFree m i ↔ bitmapEntrieFind 1 0 m.frameBitmap = some i := by
  rw [bitmapEntrieFind_iff, show max (1 : UInt32).toNat 1 = 1 from rfl, runAt_one, NextFree]

/-- **Where `frame_alloc` comes out.** -/
theorem frameAlloc_iff {frame : UInt32} {m' : Machine} :
    frameAlloc m = some (frame, m') ↔
      ∃ i, NextFree m i ∧ frame = i * 0x1000 ∧ m' = frameSet frame m := by
  constructor
  · intro h
    have hfind := h
    rw [frameAlloc, frameFind, Option.map_map, Option.map_eq_some_iff] at hfind
    obtain ⟨i, hi, -⟩ := hfind
    rw [frameAlloc_of_find hi] at h
    obtain ⟨rfl, rfl⟩ := Prod.mk.inj (Option.some.inj h)
    exact ⟨i, nextFree_iff.2 hi, rfl, rfl⟩
  · rintro ⟨i, hi, rfl, rfl⟩
    exact frameAlloc_of_find (nextFree_iff.1 hi)

/-- With all frames used, that is the frame behind the last, or the `-1` scaled. -/
theorem Exhausted.nextFree (h : Exhausted m) {i : UInt32} (hi : NextFree m i) :
    m.frameBitmap.words m.frameBitmap.size = 0 ∧ i = m.frameBitmap.size ∨ i = -1 := by
  cases hi.1 with
  | found _ hle hrun _ =>
    have hzero := runAt_one.1 hrun
    have hlast : i = m.frameBitmap.size := by
      by_contra hne
      have hlt := UInt32.le_iff_toNat_le.1 hle
      have hne' := toNat_ne hne
      have hused := h i.toNat (by omega)
      rw [ofNat_toNat] at hused
      exact hused hzero
    exact Or.inl ⟨hlast ▸ hzero, hlast⟩
  | notFound _ => exact Or.inr rfl

/-- Marking frame 0 changes nothing where it is marked with a 1. -/
theorem frameSet_zero_iff : frameSet 0 m = m ↔ m.frameBitmap.words 0 = 1 := by
  constructor
  · intro h
    exact (congrArg (fun m : Machine => m.frameBitmap.words 0) h).symm
  · intro hone
    have hwords : (fun j => if j = (0 : UInt32) / 0x1000 then 1 else m.frameBitmap.words j) =
        m.frameBitmap.words := by
      funext j
      split
      · next hj => rw [hj, ← hone]; rfl
      · rfl
    rw [frameSet, bitmapEntrieSet, hwords]

/-- A used frame and a free one are different, so that a frame that is given is not out. -/
theorem FramesInv.fresh (h : FramesInv r) {i : ℕ} (hi : i < 2 ^ 20)
    (hfree : r.machine.frameBitmap.words (UInt32.ofNat i) = 0) :
    pageAddr i ∉ r.live := by
  intro hmem
  have hused := h.used _ hmem
  rw [pageAddr_index hi] at hused
  exact hused hfree

theorem allocOk_of_free (h : FramesInv r) (hfree : FreeFrame r.machine) : AllocOk r := by
  classical
  obtain ⟨i, ⟨hlt, hi, hword⟩, hmin⟩ : ∃ i, (i < r.machine.frameBitmap.size.toNat ∧ i < 2 ^ 20 ∧
      r.machine.frameBitmap.words (UInt32.ofNat i) = 0) ∧
      ∀ j < i, ¬ (j < r.machine.frameBitmap.size.toNat ∧ j < 2 ^ 20 ∧
        r.machine.frameBitmap.words (UInt32.ofNat j) = 0) :=
    ⟨Nat.find hfree, Nat.find_spec hfree, fun _ => Nat.find_min hfree⟩
  refine ⟨_, _, frameAlloc_of_free hlt hi hword fun j hj hzero => ?_, Or.inl ⟨i, hlt, ?_, hword,
    h.fresh hi hword, ?_⟩⟩
  · exact hmin j hj ⟨by omega, by omega, hzero⟩
  · exact pageAddr_toNat hi
  · rw [frameSet, pageAddr_index hi]

theorem allocOk_of_wraps (h : WrapsToZero r.machine) : AllocOk r := by
  obtain ⟨hall, hbehind, hwrap, hone⟩ := h
  have hnext : NextFree r.machine r.machine.frameBitmap.size := by
    refine ⟨FindResult.found _ (UInt32.le_refl _) (runAt_one.2 hbehind) fun j hj hrun => ?_,
      fun _ => hbehind⟩
    have hused := hall j.toNat (UInt32.lt_iff_toNat_lt.1 hj)
    rw [ofNat_toNat] at hused
    exact hused (runAt_one.1 hrun)
  have hzero : r.machine.frameBitmap.size * 0x1000 = 0 := by
    apply eq_of_toNat
    rw [UInt32.toNat_mul]
    simp only [UInt32.reduceToNat]
    omega
  exact ⟨0, _, frameAlloc_iff.2 ⟨_, hnext, hzero.symm, rfl⟩,
    Or.inr ⟨hall, rfl, frameSet_zero_iff.2 hone⟩⟩

theorem AllocOk.there (hok : AllocOk r) : FreeFrame r.machine ∨ WrapsToZero r.machine := by
  obtain ⟨frame, m', halloc, hcases⟩ := hok
  rcases hcases with ⟨i, hgiven⟩ | ⟨hall, rfl, rfl⟩
  · left
    refine ⟨i, hgiven.lt, ?_, hgiven.free⟩
    have haddr := hgiven.addr
    have hlt := frame.toNat_lt
    omega
  · right
    obtain ⟨i, hi, hzero, hmachine⟩ := frameAlloc_iff.1 halloc
    have hzero' := congrArg UInt32.toNat hzero
    rw [UInt32.toNat_mul] at hzero'
    simp only [UInt32.reduceToNat] at hzero'
    rcases hall.nextFree hi with ⟨hbehind, rfl⟩ | rfl
    · exact ⟨hall, hbehind, by omega, frameSet_zero_iff.1 hmachine.symm⟩
    · exact absurd hzero' (by decide)

/-- **One allocation** is as it should be exactly when there is a frame to give. -/
theorem frameOk_iff (h : FramesInv r) (o : FrameOp) : FrameOk r o ↔ FrameThere r o := by
  cases o with
  | alloc =>
    constructor
    · intro hok
      exact hok.there
    · rintro (hfree | hwraps)
      · exact allocOk_of_free h hfree
      · exact allocOk_of_wraps hwraps
  | free _ => exact Iff.rfl

end Alloc

/-! ### Runs keep the frames apart -/

section Steps

variable {r r' : FrameRun}

theorem FrameGiven.inv {frame : UInt32} {m' : Machine} {i : ℕ} (hgiven : FrameGiven r frame m' i)
    (h : FramesInv r) : FramesInv ⟨m', insert frame r.live⟩ := by
  have hi : i < 2 ^ 20 := by
    have haddr := hgiven.addr
    have hlt := frame.toNat_lt
    omega
  have hindex : frame / 0x1000 = UInt32.ofNat i := by
    rw [← pageAddr_index hi]
    congr 1
    exact eq_of_toNat (hgiven.addr.trans (pageAddr_toNat hi).symm)
  have hwords : ∀ j, m'.frameBitmap.words j =
      if j = UInt32.ofNat i then 1 else r.machine.frameBitmap.words j := by
    intro j
    rw [hgiven.marked]
    rfl
  have hkeep : ∀ j, r.machine.frameBitmap.words j ≠ 0 → m'.frameBitmap.words j ≠ 0 := by
    intro j hj
    rw [hwords]
    split
    · decide
    · exact hj
  have hzero : i ≠ 0 := by
    rintro rfl
    exact h.zero hgiven.free
  refine ⟨hkeep 0 h.zero, fun f hf => ?_, fun f hf => ?_, fun f hf => ?_⟩
  · rcases Finset.mem_insert.1 hf with rfl | hf
    · rw [pageAligned_iff, hgiven.addr]
      omega
    · exact h.aligned f hf
  · rcases Finset.mem_insert.1 hf with rfl | hf
    · rintro rfl
      have haddr := hgiven.addr
      rw [show (0 : UInt32).toNat = 0 from rfl] at haddr
      omega
    · exact h.ne_zero f hf
  · rcases Finset.mem_insert.1 hf with rfl | hf
    · rw [hwords, if_pos hindex]
      decide
    · exact hkeep _ (h.used f hf)

theorem FramesInv.free (h : FramesInv r) {frame : UInt32} (hmem : frame ∈ r.live) :
    FramesInv ⟨frameFree frame r.machine, r.live.erase frame⟩ := by
  have hkeep : ∀ j, j ≠ frame / 0x1000 → r.machine.frameBitmap.words j ≠ 0 →
      (frameFree frame r.machine).frameBitmap.words j ≠ 0 := by
    intro j hne hj
    show (if j = frame / 0x1000 then 0 else r.machine.frameBitmap.words j) ≠ 0
    rwa [if_neg hne]
  refine ⟨hkeep 0 (fun hzero => ?_) h.zero, fun f hf => ?_, fun f hf => ?_, fun f hf => ?_⟩
  · refine h.ne_zero frame hmem (page_eq_of_div (h.aligned frame hmem) (by decide) ?_)
    rw [← hzero]
    rfl
  · exact h.aligned f (Finset.mem_of_mem_erase hf)
  · exact h.ne_zero f (Finset.mem_of_mem_erase hf)
  · obtain ⟨hne, hf⟩ := Finset.mem_erase.1 hf
    exact hkeep _ (fun hsame => hne (page_eq_of_div (h.aligned f hf) (h.aligned frame hmem) hsame))
      (h.used f hf)

theorem FramesInv.step (h : FramesInv r) {o : FrameOp} (hok : FrameOk r o)
    (hstep : frameStep r o = some r') : FramesInv r' := by
  cases o with
  | alloc =>
    obtain ⟨frame, m', halloc, hcases⟩ := hok
    rw [frameStep, halloc, Option.map_some] at hstep
    obtain rfl := Option.some.inj hstep
    rcases hcases with ⟨i, hgiven⟩ | ⟨_, rfl, rfl⟩
    · have hinv := hgiven.inv h
      have hne := hinv.ne_zero frame (Finset.mem_insert_self _ _)
      rwa [if_neg hne]
    · rwa [if_pos rfl]
  | free frame =>
    rw [frameStep] at hstep
    split at hstep
    · next hmem =>
      obtain rfl := Option.some.inj hstep
      exact h.free hmem
    · cases hstep

end Steps

/-- **Handing out frames.**  Over every run of `frame_alloc` and `frame_free` each allocation is as it
should be exactly as long as there is a frame to give whenever one is asked for. -/
theorem frames_ok_iff (r : FrameRun) (h : FramesInv r) (ops : List FrameOp) :
    Permitted frameStep FrameOk r ops ↔ Permitted frameStep FrameThere r ops :=
  permitted_iff (fun _ o hr => frameOk_iff hr o) (fun _ _ _ hr => hr.step) ops r h

/-- A machine with the first frames of `bitmapOne`, of which frame 0 is used and the others are free,
and the word behind them is 0. -/
def machineFrames (size : UInt32) : Machine where
  kernelPointer := 0
  frameBitmap := { bitmapOne with size }
  kernelHeap := none
  pagingState := 1
  cr3 := 0
  mem := fun _ => 0

theorem framesInv_machineFrames (size : UInt32) : FramesInv ⟨machineFrames size, ∅⟩ where
  zero := show (1 : UInt32) ≠ 0 by decide
  aligned _ hf := absurd hf (Finset.notMem_empty _)
  ne_zero _ hf := absurd hf (Finset.notMem_empty _)
  used _ hf := absurd hf (Finset.notMem_empty _)

/-- Both frames are handed out, and one of them once more. -/
theorem frames_ok_twoFrames : Permitted frameStep FrameOk ⟨machineFrames 3, ∅⟩
    [.alloc, .alloc, .free 0x1000, .alloc] := by
  have hfirst : frameStep ⟨machineFrames 3, ∅⟩ .alloc =
      some ⟨frameSet 0x1000 (machineFrames 3), {0x1000}⟩ := rfl
  have hsecond : frameStep ⟨frameSet 0x1000 (machineFrames 3), {0x1000}⟩ .alloc =
      some ⟨frameSet 0x2000 (frameSet 0x1000 (machineFrames 3)), {0x2000, 0x1000}⟩ := rfl
  refine (frames_ok_iff _ (framesInv_machineFrames 3) _).2 ⟨Or.inl ⟨1, by decide, by decide, by decide⟩,
    fun s₁ hs₁ => ⟨Or.inl ?_, fun s₂ hs₂ => ⟨trivial, fun s₃ hs₃ => ⟨Or.inl ?_, fun _ _ => trivial⟩⟩⟩⟩
  · obtain rfl := Option.some.inj (hfirst.symm.trans hs₁)
    exact ⟨2, by decide, by decide, by decide⟩
  · obtain rfl := Option.some.inj (hfirst.symm.trans hs₁)
    obtain rfl := Option.some.inj (hsecond.symm.trans hs₂)
    rw [frameStep, if_pos (by decide)] at hs₃
    obtain rfl := Option.some.inj hs₃
    exact ⟨1, by decide, by decide, by decide⟩

/-- **With no frame left** the frame behind the last is handed out. -/
theorem frame_behind_last :
    (frameAlloc (machineFrames 1)).map Prod.fst = some 0x1000 ∧ FramesInv ⟨machineFrames 1, ∅⟩ ∧
      ¬ Permitted frameStep FrameOk ⟨machineFrames 1, ∅⟩ [.alloc] := by
  refine ⟨by decide, framesInv_machineFrames 1, fun h => ?_⟩
  rcases AllocOk.there h.1 with ⟨i, hi, _, hfree⟩ | ⟨_, _, hwrap, _⟩
  · have hi' : i < 1 := hi
    obtain rfl : i = 0 := by omega
    exact absurd hfree (by decide)
  · exact absurd hwrap (by decide)

end CometOS
