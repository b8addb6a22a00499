import CometOS.Multiboot

/-!
# The regions of the boot allocator (`ponter_move_int` of `mem/paging.c`)

Every structure that is made before paging is on lies in a region of the boot allocator.  Rounding
`kernel_pointer` down to its page is made good by the page that is added to it, so that the pointer
never goes back over a region that has been handed out.
-/

namespace CometOS

open ByteMemory Run Word32

/-- A request, with `physaddr`: where the address is stored too, or a null pointer. -/
structure MoveRequest extends BootRequest where
  physaddr : UInt32

/-- A region that has been handed out: the request, and what has been returned. -/
structure GivenRegion where
  request : MoveRequest
  start : UInt32

/-- `kernel_pointer`, memory, and the regions that have been handed out, the oldest first. -/
structure BootMoves where
  kernelPointer : UInt32
  mem : Mem
  given : List GivenRegion

/-- `ponter_move_int(size, physaddr, align)`: what is returned, the new `kernel_pointer`, and memory
afterwards. -/
def ponterMoveIntPhys (size physaddr align : UInt32) (mem : Mem) (kernelPointer : UInt32) :
    UInt32 × UInt32 × Mem :=
  let kernelPointer :=
    if align = 1 ∧ kernelPointer &&& 0xFFFFF000 ≠ 0 then (kernelPointer &&& 0xFFFFF000) + 0x1000
    else kernelPointer
  let mem := if physaddr ≠ 0 then write32 mem physaddr kernelPointer else mem
  (kernelPointer, kernelPointer + size, mem)

/-- A call of `ponter_move_int`. -/
def bootMove (s : BootMoves) (r : MoveRequest) : Option BootMoves :=
  let moved := ponterMoveIntPhys r.size r.physaddr r.align s.mem s.kernelPointer
  some ⟨moved.2.1, moved.2.2, s.given ++ [⟨r, moved.1⟩]⟩

/-- Address `a` is in the region. -/
def GivenRegion.Holds (g : GivenRegion) (a : ℕ) : Prop :=
  g.start.toNat ≤ a ∧ a < g.start.toNat + g.request.size.toNat

/-- What the requests are owed, with `kernel_pointer` at `start` in the beginning: regions of their own,
not below it, at a page boundary where asked for; and the last address, stored where asked for. -/
structure RegionsOk (start : UInt32) (s : BootMoves) : Prop where
  disjoint : s.given.Pairwise fun g h => ∀ a, ¬ (g.Holds a ∧ h.Holds a)
  above : ∀ g ∈ s.given, start ≤ g.start
  aligned : ∀ g ∈ s.given, g.request.align = 1 → g.start.toNat % 0x1000 = 0
  stored : ∀ g ∈ s.given.getLast?, g.request.physaddr ≠ 0 → read32 s.mem g.request.physaddr = g.start

/-! ### One request -/

theorem bootMove_eq (s : BootMoves) (r : MoveRequest) : bootMove s r = some
    { kernelPointer := r.region s.kernelPointer + r.size
      mem := if r.physaddr ≠ 0 then write32 s.mem r.physaddr (r.region s.kernelPointer) else s.mem
      given := s.given ++ [⟨r, r.region s.kernelPointer⟩] } := rfl

/-- A region starts at most a page above `kernel_pointer`. -/
theorem BootRequest.region_bounds (r : BootRequest) {k : UInt32} (h : k.toNat + 0x1000 < 2 ^ 32) :
    k.toNat ≤ (r.region k).toNat ∧ (r.region k).toNat ≤ k.toNat + 0x1000 :=
  ponterMoveInt_fst_bounds r.size r.align h

/-- From the second page on, an aligned request is given a page boundary. -/
theorem BootRequest.region_aligned {r : BootRequest} (halign : r.align = 1) {k : UInt32}
    (hk : 0x1000 ≤ k.toNat) (h : k.toNat + 0x1000 < 2 ^ 32) : (r.region k).toNat % 0x1000 = 0 := by
  have hp := toNat_and_page k
  have hne : k &&& 0xFFFFF000 ≠ 0 := by
    intro h0
    rw [h0, UInt32.toNat_zero] at hp
    omega
  unfold BootRequest.region ponterMoveInt
  simp only
  rw [if_pos ⟨halign, hne⟩, toNat_add_of_lt (by rw [hp]; simp only [UInt32.reduceToNat]; omega), hp]
  simp only [UInt32.reduceToNat]
  omega

/-! ### All requests -/

/-- The bytes of the requests that are still to come, with a page for each. -/
def roomFor (rs : List MoveRequest) : ℕ := (rs.map fun r => r.size.toNat + 0x1000).sum

/-- The regions so far end at or below `kernel_pointer`, and what is to come has room above it. -/
structure BootInv (start : UInt32) (s : BootMoves) (rs : List MoveRequest) : Prop where
  ok : RegionsOk start s
  page : 0x1000 ≤ s.kernelPointer.toNat
  above : start.toNat ≤ s.kernelPointer.toNat
  below : ∀ g ∈ s.given, g.start.toNat + g.request.size.toNat ≤ s.kernelPointer.toNat
  room : s.kernelPointer.toNat + roomFor rs < 2 ^ 32

variable {start : UInt32} {s s' : BootMoves} {r : MoveRequest} {rs : List MoveRequest}

/-- A region that starts at or above the end of all the others is one more that is right. -/
theorem RegionsOk.given (h : RegionsOk start s) {g : GivenRegion} (habove : start ≤ g.start)
    (hends : ∀ g' ∈ s.given, g'.start.toNat + g'.request.size.toNat ≤ g.start.toNat)
    (haligned : g.request.align = 1 → g.start.toNat % 0x1000 = 0) (hgiven : s'.given = s.given ++ [g])
    (hstored : g.request.physaddr ≠ 0 → read32 s'.mem g.request.physaddr = g.start) :
    RegionsOk start s' := by
  have hmem : ∀ g' ∈ s'.given, g' ∈ s.given ∨ g' = g := fun g' hg' => by
    rw [hgiven] at hg'
    exact (List.mem_append.1 hg').imp_right List.mem_singleton.1
  refine ⟨?_, fun g' hg' => ?_, fun g' hg' => ?_, fun g' hg' => ?_⟩
  · rw [hgiven]
    refine List.pairwise_append.2 ⟨h.disjoint, List.pairwise_singleton _ _, fun g' hg' _ hg a => ?_⟩
    obtain rfl := List.mem_singleton.1 hg
    rintro ⟨⟨_, hlt⟩, hge, _⟩
    exact absurd (hlt.trans_le (hends g' hg')) (not_lt.2 hge)
  · rcases hmem g' hg' with hold | rfl
    · exact h.above g' hold
    · exact habove
  · rcases hmem g' hg' with hold | rfl
    · exact h.aligned g' hold
    · exact haligned
  · obtain rfl : g = g' := by
      rwa [hgiven, List.getLast?_append, List.getLast?_singleton, Option.some_or,
        Option.mem_some_iff] at hg'
    exact hstored

/-- The new region lies between the old `kernel_pointer` and the new one. -/
theorem BootInv.move (h : BootInv start s (r :: rs)) (hmove : bootMove s r = some s') :
    BootInv start s' rs := by
  have hroom := h.room
  rw [roomFor, List.map_cons, List.sum_cons, ← roomFor] at hroom
  have hpage := h.page
  have habove := h.above
  obtain ⟨hlo, hhi⟩ := r.region_bounds (k := s.kernelPointer) (by omega)
  rw [bootMove_eq] at hmove
  obtain rfl := Option.some.inj hmove
  have hnext : (r.region s.kernelPointer + r.size).toNat =
      (r.region s.kernelPointer).toNat + r.size.toNat := toNat_add_of_lt (by omega)
  have hends : ∀ g ∈ s.given, g.start.toNat + g.request.size.toNat ≤
      (r.region s.kernelPointer).toNat := fun g hg => (h.below g hg).trans hlo
  refine ⟨h.ok.given (g := ⟨r, r.region s.kernelPointer⟩) ?_ hends (fun halign => ?_) rfl
    (fun hphys => ?_), ?_, ?_, fun g hg => ?_, ?_⟩
  · exact UInt32.le_iff_toNat_le.2 (habove.trans hlo)
  · exact BootRequest.region_aligned halign hpage (by omega)
  · show read32 (if r.physaddr ≠ 0 then _ else _) r.physaddr = _
    rw [if_pos hphys]
    exact read32_write32_same _ _ _
  · rw [hnext]
    omega
  · rw [hnext]
    omega
  · rw [hnext]
    rcases List.mem_append.1 hg with hold | hnew
    · exact (hends g hold).trans (Nat.le_add_right _ _)
    · obtain rfl := List.mem_singleton.1 hnew
      exact le_rfl
  · rw [hnext]
    omega

/-- **The boot allocator.**  Over every sequence of requests for which there is room, all regions that
have been handed out are right after each of them. -/
theorem bootMoves_ok (mem : Mem) (kernelPointer : UInt32) (requests : List MoveRequest)
    (hpage : 0x1000 ≤ kernelPointer.toNat)
    (hroom : kernelPointer.toNat + (requests.map fun r => r.size.toNat + 0x1000).sum < 2 ^ 32) :
    AllStates bootMove (RegionsOk kernelPointer) ⟨kernelPointer, mem, []⟩ requests := by
  refine allStates_of_ahead (BootInv kernelPointer) (fun _ _ h => h.ok) (fun _ _ _ _ h => h.move)
    requests _ ⟨⟨List.Pairwise.nil, ?_, ?_, ?_⟩, hpage, le_rfl, ?_, hroom⟩
  · exact fun g hg => absurd hg List.not_mem_nil
  · exact fun g hg => absurd hg List.not_mem_nil
  · exact fun g hg => absurd hg (Option.not_mem_none g)
  · exact fun g hg => absurd hg List.not_mem_nil

/-- Behind a kernel that ends at 0x110800: a pointer's size, then a header on a page boundary whose
address is stored at 0x9000. -/
theorem bootMoves_ok_two : AllStates bootMove (RegionsOk 0x110800) ⟨0x110800, fun _ => 0, []⟩
    [⟨⟨sizeofHeapPointer, 0⟩, 0⟩, ⟨⟨sizeofBitmap, 1⟩, 0x9000⟩] :=
  bootMoves_ok (fun _ => 0) 0x110800 _ (by decide) (by decide)

end CometOS
