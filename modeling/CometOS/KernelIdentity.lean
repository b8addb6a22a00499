import CometOS.KernelRun

/-!
# The identity mapping under `heap_alloc`

`heap_create` is given `mem_upper`, which counts KiB, for the heap's top address, so that the heap's pages are
from the lowest, which the kernel is in, and `page_map` maps over what is there.  The pages below
`kernel_pointer`, the directory and the table keep their mapping exactly while every block starts behind the
table.
-/

namespace CometOS

open ByteMemory Loop Paged Run Word32

/-- The pages below `kernel_pointer`, the directory and the tables are mapped to themselves. -/
structure IdentityKept (c : Computer) : Prop where
  below : ∀ v, PageAligned v → v < c.kernelPointer → c.translate v = some v
  directory : c.translate c.cr3 = some c.cr3
  tables : ∀ e : UInt32, e.toNat < 1024 → Present (pageWord c.mem c.cr3 e) →
    c.translate (phyGet (pageWord c.mem c.cr3 e)) = some (phyGet (pageWord c.mem c.cr3 e))

/-- The kernel's memory with its pages up to the table mapped to themselves, and the free frames behind. -/
structure KernelIdentity (L : KernelLayout) (r : KernelRun) (m : Machine) (heap : Heap) : Prop where
  live : KernelLive L r m heap
  words : ∀ i < L.pages + 2, m.word L i = pageAddr i ||| 3
  frames : ∀ f ∈ freeFrames m, L.pages + 2 ≤ f
  pointer : 0x100000 ≤ m.kernelPointer.toNat ∧ m.kernelPointer.toNat ≤ L.pages * 0x1000

section

variable {L : KernelLayout} {r r' : KernelRun} {m : Machine} {heap : Heap} {size : UInt32}

theorem KernelIdentity.translate (h : KernelIdentity L r m heap) {i : ℕ} (hi : i < L.pages + 2) :
    r.computer.translate (pageAddr i) = some (pageAddr i) := by
  have hL := L.one_table
  rw [h.live.kernel.translate, h.live.kernel.tables.translate (by omega), h.words i hi,
    if_pos (present_or_three _), phyGet_three (pageAddr_aligned (by omega))]

theorem KernelIdentity.kept (h : KernelIdentity L r m heap) : IdentityKept r.computer := by
  have hL := L.one_table
  refine ⟨fun v hv hlt => ?_, ?_, fun e he hp => ?_⟩
  · have hpointer := h.pointer.2
    rw [← h.live.kernel.kernelPointer_eq, UInt32.lt_iff_toNat_lt] at hlt
    rw [← pageAddr_of_aligned hv]
    exact h.translate (by omega)
  · rw [h.live.kernel.cr3_eq]
    exact h.translate (by omega)
  · rw [h.live.kernel.present_zero he hp]
    exact h.translate (by omega)

/-- `heap_alloc` leaves `kernel_pointer`. -/
theorem heapStep_pointer {q q' : HeapRun} (hready : HeapReady q.machine heap)
    (hs : heapStep q (.alloc size) = some q') : q'.machine.kernelPointer = q.machine.kernelPointer := by
  rw [heapStep] at hs
  obtain ⟨x, hx, rfl⟩ := Option.map_eq_some_iff.1 hs
  by_cases hsize : PageAligned size
  · obtain ⟨-, hnone, hsome⟩ := heapAlloc_spec hready size hsize
    by_cases hok : EntryOk heap (foundEntry size q.machine)
    · obtain ⟨m', hm', hmaps⟩ := hsome hok
      obtain rfl := Option.some.inj (hx.symm.trans hm')
      exact hmaps.kernelPointer_eq
    · obtain rfl := Option.some.inj (hx.symm.trans (hnone hok))
      rfl
  · obtain rfl := Option.some.inj (hx.symm.trans (heapAlloc_unaligned hsize))
    rfl

/-- **A block behind the table** leaves it all as it is. -/
theorem KernelIdentity.step (h : KernelIdentity L r m heap) (hc : Clear L r (.alloc size))
    (hhigh : StaysAbove ((L.pages + 2) * 0x1000) r (.alloc size))
    (hs : kernelStep r (.alloc size) = some r') : ∃ m' heap', KernelIdentity L r' m' heap' := by
  have hL := L.one_table
  by_cases hsize : PageAligned size
  · obtain ⟨index, start, hclear⟩ := hc hsize
    obtain ⟨hnone, hsome⟩ := h.live.step_alloc hsize hclear
    by_cases hok : EntryOk heap index
    · obtain ⟨c', m', hc', hm', hlive, hmapped⟩ := hsome hok
      obtain rfl := Option.some.inj (hs.symm.trans hc')
      have hstart := (h.live.kernel.alloc hsize hclear).2.1
      refine ⟨m', _, hlive, fun i hi => ?_, fun f hf => h.frames f (hmapped.free hf), ?_⟩
      · rw [hmapped.others i (by omega), h.words i hi]
        by_cases h0 : size = 0
        · rw [h0, UInt32.toNat_zero]
          omega
        · have hle := hhigh hsize h0 index start hclear.found hclear.start_eq
            (by rw [← hstart]; exact hok.1) (by rw [← hstart]; exact hok.2)
          rw [← hstart] at hle
          change _ ≤ (entryAddr heap index).toNat at hle
          left
          omega
      · have hpointer := heapStep_pointer h.live.kernel.heapReady hm'
        rw [show m'.kernelPointer = m.kernelPointer from hpointer]
        exact h.pointer
    · obtain rfl := Option.some.inj (hs.symm.trans (hnone hok).1)
      exact ⟨m, heap, h⟩
  · obtain rfl := Option.some.inj (hs.symm.trans (h.live.step_unaligned hsize).1)
    exact ⟨m, heap, h⟩

/-- **A block below the first MiB** takes a page of the kernel's: it is mapped to a frame behind the
table. -/
theorem KernelIdentity.not_kept (h : KernelIdentity L r m heap) (hc : Clear L r (.alloc size))
    (hlow : ¬ StaysAbove ((L.pages + 2) * 0x1000) r (.alloc size))
    (hs : kernelStep r (.alloc size) = some r') : ¬ IdentityKept r'.computer := by
  intro hkept
  unfold StaysAbove at hlow
  push Not at hlow
  obtain ⟨hsize, h0, index, start, hi, hst, hne, hle, hlt⟩ := hlow
  obtain ⟨index', start', hclear⟩ := hc hsize
  obtain rfl := Option.some.inj (hclear.found.symm.trans hi)
  obtain rfl := Option.some.inj (hclear.start_eq.symm.trans hst)
  have hstart := (h.live.kernel.alloc hsize hclear).2.1
  have hblock := (hclear.block hne hle).apart
  rw [← hstart] at hne hle hlt hblock
  obtain ⟨c', m', hc', hm', hlive, hmapped⟩ := (h.live.step_alloc hsize hclear).2 ⟨hne, hle⟩
  obtain rfl := Option.some.inj (hs.symm.trans hc')
  have hal := entryAddr_aligned h.live.kernel.heapReady index'
  have hal' := (pageAligned_iff _).1 hal
  have hsz := (pageAligned_iff _).1 hsize
  have hpos := toNat_pos h0
  have hpos' := toNat_pos hne
  change (entryAddr heap index').toNat < _ at hlt
  change (entryAddr heap index').toNat + size.toNat ≤ _ ∨ _ ≤ (entryAddr heap index').toNat ∨ _ at hblock
  have hblow : (entryAddr heap index').toNat + size.toNat ≤ 0x100000 := by
    rcases hblock with hb | hb | hb
    · exact hb
    · omega
    · exact absurd hb h0
  obtain ⟨f, hf, hword⟩ := hmapped.pages _ le_rfl (by omega)
  have hfp := h.frames f hf
  obtain ⟨hfc, hf20, -⟩ := h.live.kernel.frames_lt hf
  -- the block's first page is below `kernel_pointer`
  have hpointer : m'.kernelPointer = m.kernelPointer := heapStep_pointer h.live.kernel.heapReady hm'
  have hsame := hkept.below (entryAddr heap index') hal (by
    rw [UInt32.lt_iff_toNat_lt, ← hlive.kernel.kernelPointer_eq, hpointer]
    have := h.pointer.1
    omega)
  have htrans := hlive.kernel.tables.translate (i := (entryAddr heap index').toNat / 0x1000) (by omega)
  rw [hword, if_pos (by rw [or_three_one]; exact present_or_three _), phyGet_or_flags (pageAddr_aligned hf20),
    ← hlive.kernel.translate, pageAddr_of_aligned hal, hsame] at htrans
  have hnum := congrArg UInt32.toNat (Option.some.inj htrans)
  rw [pageAddr_toNat hf20] at hnum
  omega

end

/-- **All along a run** of clear requests. -/
theorem KernelIdentity.run {L : KernelLayout} {r : KernelRun} {m : Machine} {heap : Heap}
    (h : KernelIdentity L r m heap) {sizes : List UInt32}
    (hc : Permitted kernelStep (Clear L) r (sizes.map .alloc)) :
    AllStates kernelStep (fun r => IdentityKept r.computer) r (sizes.map .alloc) ↔
      AllSteps kernelStep (StaysAbove ((L.pages + 2) * 0x1000)) r (sizes.map .alloc) := by
  refine allStates_iff_of_permitted (I := fun r => ∃ m heap, KernelIdentity L r m heap)
    (E := fun r op => Clear L r op ∧ ∃ size, op = .alloc size) ?_ ?_ ?_ _ r ⟨m, heap, h⟩
    (hc.and fun op hop => ?_)
  · rintro r ⟨m, heap, h⟩
    exact h.kept
  · rintro r op r' ⟨m, heap, h⟩ ⟨hclear, size, rfl⟩ hhigh hs
    exact h.step hclear hhigh hs
  · rintro r op r' ⟨m, heap, h⟩ ⟨hclear, size, rfl⟩ hlow hs
    exact h.not_kept hclear hlow hs
  · obtain ⟨size, -, rfl⟩ := List.mem_map.1 hop
    exact ⟨size, rfl⟩

/-! ### After booting -/

theorem Booted.identity {L : KernelLayout} {memUpper : UInt32} {c : Computer} {m : Machine} {heap : Heap}
    (hb : Booted L memUpper m heap) (h : KernelAt L c m heap)
    (hpointer : 0x100000 ≤ c.kernelPointer.toNat ∧ c.kernelPointer.toNat ≤ L.pages * 0x1000) :
    KernelIdentity L ⟨c, []⟩ m heap := by
  have hL := L.one_table
  refine ⟨h.live, fun i hi => hb.words i (by omega), fun f hf => ?_, ?_⟩
  · rw [hb.freeFrames_eq h, Finset.mem_Ico] at hf
    exact hf.1
  · rw [h.kernelPointer_eq]
    exact hpointer

/-- **`heap_alloc` and the identity mapping, exactly.**  With the boot structures apart, over every sequence
of requests that keep clear of them, the pages below `kernel_pointer`, the directory and the table keep
their mapping if and only if every request comes out at no page, is for no page, or starts behind the
table. -/
theorem keeps_identity_iff (memLower memUpper : UInt32) (c : Computer) (hoff : c.pagingState = 0)
    (h : BootApart memUpper c.kernelPointer) :
    ∃ c', c.pagingInitialize memLower memUpper = some c' ∧ ∀ sizes : List UInt32,
      Permitted kernelStep (Clear (bootLayout memUpper c.kernelPointer h)) ⟨c', []⟩ (sizes.map .alloc) →
        (AllStates kernelStep (fun r => IdentityKept r.computer) ⟨c', []⟩ (sizes.map .alloc) ↔
          AllSteps kernelStep (StaysAbove ((bootPageCount memUpper c.kernelPointer + 2) * 0x1000)) ⟨c', []⟩
            (sizes.map .alloc)) := by
  obtain ⟨c', m, heap, hrun, hkernel, hbooted, hpointer⟩ := pagingInitialize_kernelAt memLower hoff h
  exact ⟨c', hrun, fun sizes hc => (hbooted.identity hkernel (by rw [hpointer]; exact h.pointer)).run hc⟩

/-- With 2 GiB the heap's top pages are far behind the table, and three requests leave the mapping. -/
theorem keeps_identity_2G : ∃ c', (bareComputer 0x110000).pagingInitialize 0 0x200000 = some c' ∧
    AllStates kernelStep (fun r => IdentityKept r.computer) ⟨c', []⟩
      ([0x1000, 0x1000, 0x1000].map HeapOp.alloc) := by
  have hapart : BootApart 0x200000 (bareComputer 0x110000).kernelPointer := by decide
  obtain ⟨c', m, heap, hrun, hkernel, hbooted, -⟩ :=
    pagingInitialize_kernelAt (c := bareComputer 0x110000) 0 rfl hapart
  obtain ⟨c₁, hrun₁, hiff⟩ := keeps_identity_iff 0 0x200000 (bareComputer 0x110000) rfl hapart
  obtain rfl := Option.some.inj (hrun.symm.trans hrun₁)
  obtain ⟨hcalls, -⟩ := hbooted.permitted_pages hkernel 0 ([0x1000, 0x1000, 0x1000].map HeapOp.alloc)
    (by decide) (show 3 ≤ (0x200000 : UInt32).toNat / 512 by decide)
    (show 3 + (bootPageCount 0x200000 0x110000 + 2) ≤ (0x200000 : UInt32).toNat / 512 by decide)
    (Or.inr (show 0x1000 * (bootPageCount 0x200000 0x110000 + 2 + 3) ≤ (0x200000 : UInt32).toNat by decide))
    (by decide)
  refine ⟨c', hrun, (hiff _ (hcalls.imp fun _ _ h => h.1)).2 (Permitted.allSteps (hcalls.imp ?_))⟩
  rintro r (size | b) ⟨-, hstays⟩
  · exact fun hsize h0 i s hi hs hne hle => le_trans (by decide) (hstays hsize h0 i s hi hs hne hle)
  · exact trivial

/-- With 384 MiB the first page handed out is one of the lowest, and is mapped elsewhere. -/
theorem keeps_identity_fails_384M : ∃ c' r, (bareComputer 0x110000).pagingInitialize 0 0x60000 = some c' ∧
    IdentityKept c' ∧ kernelStep ⟨c', []⟩ (.alloc 0x1000) = some r ∧ ¬ IdentityKept r.computer := by
  have hapart : BootApart 0x60000 (bareComputer 0x110000).kernelPointer := by decide
  obtain ⟨c', m, heap, hrun, hkernel, hbooted, hpointer⟩ :=
    pagingInitialize_kernelAt (c := bareComputer 0x110000) 0 rfl hapart
  have hidentity := hbooted.identity hkernel (by rw [hpointer]; exact hapart.pointer)
  obtain ⟨hclear, hok, c₁, m₁, hc₁, -⟩ := hbooted.first_alloc hkernel (show PageAligned 0x1000 by decide)
    (by decide) (show 1 ≤ (0x60000 : UInt32).toNat / 512 by decide)
    (hbooted.blockClear hkernel (by decide) (Or.inl (by decide))
      (show 1 + (bootPageCount 0x60000 0x110000 + 2) ≤ (0x60000 : UInt32).toNat / 512 by decide))
  refine ⟨c', _, hrun, hidentity.kept, hc₁,
    hidentity.not_kept (fun _ => ⟨_, _, hclear⟩) (fun hstays => ?_) hc₁⟩
  have hle := hstays (by decide) (by decide) _ _ hclear.found hclear.start_eq (by decide) (by decide)
  exact absurd hle (show ¬ (bootPageCount 0x60000 0x110000 + 2) * 0x1000 ≤ _ by decide)

end CometOS
