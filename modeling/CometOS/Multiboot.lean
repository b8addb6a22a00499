import CometOS.BootAlloc
import CometOS.Lib.Run

/-!
# The boot loader's modules (`multiboot_print`)

`multiboot_print` prints the multiboot structure and, as it lists the modules, moves
`kernel_pointer` on by each module's length.  The model keeps what it reports of each module; of the
structure it reads the fields that decide this.
-/

namespace CometOS

open ByteMemory Loop Run Word32

structure Multiboot where
  flags : UInt32
  modsCount : UInt32
  modsAddr : UInt32

/-- What `multiboot_print` does to `module_start`, `kernel_pointer` and the screen: the ranges it has
printed, the first first. -/
structure MultibootState where
  moduleStart : UInt32
  kernelPointer : UInt32
  reported : List (UInt32 × UInt32)

/-- One turn of the loop over the modules.  The start is read through `(uint32_t *)mods_addr + 8 * i`,
which steps by words, and the end through `mods_addr + 8 * i + 4`, which steps by bytes. -/
def multibootTurn (mem : Mem) (mboot : Multiboot) (i : ℕ) (s : MultibootState) : MultibootState :=
  let moduleStart := read32 mem (mboot.modsAddr + 4 * (8 * UInt32.ofNat i))
  let moduleEnd := read32 mem (mboot.modsAddr + 8 * UInt32.ofNat i + 4)
  { moduleStart
    kernelPointer := (ponterMoveInt (moduleEnd - moduleStart) 0 s.kernelPointer).2
    reported := s.reported ++ [(moduleStart, moduleEnd)] }

/-- How many modules there are: the module fields count only if bit 3 of the flags is set. -/
def moduleCount (mboot : Multiboot) : ℕ :=
  if mboot.flags &&& 8 ≠ 0 then mboot.modsCount.toNat else 0

def multibootPrint (mem : Mem) (mboot : Multiboot) (s : MultibootState) : MultibootState :=
  forUp (multibootTurn mem mboot) 0 (moduleCount mboot) s

/-- Entry `i` of the module list, as the boot loader laid it out: 16 bytes each, `mod_start` and
`mod_end` first. -/
def moduleEntry (mem : Mem) (mboot : Multiboot) (i : ℕ) : UInt32 × UInt32 :=
  (read32 mem (mboot.modsAddr + 16 * UInt32.ofNat i),
    read32 mem (mboot.modsAddr + 16 * UInt32.ofNat i + 4))

/-- What the loop reads for module `i`. -/
def moduleRead (mem : Mem) (mboot : Multiboot) (i : ℕ) : UInt32 × UInt32 :=
  (read32 mem (mboot.modsAddr + 4 * (8 * UInt32.ofNat i)),
    read32 mem (mboot.modsAddr + 8 * UInt32.ofNat i + 4))

/-- The lengths of the first `n` ranges, added up. -/
def totalLength (range : ℕ → UInt32 × UInt32) : ℕ → UInt32
  | 0 => 0
  | n + 1 => totalLength range n + ((range n).2 - (range n).1)

/-- **What the loop does.**  It reports what it reads, and moves the pointer on by the lengths. -/
theorem multibootPrint_eq (mem : Mem) (mboot : Multiboot) (s : MultibootState)
    (h : s.reported = []) :
    (multibootPrint mem mboot s).reported =
        (List.range (moduleCount mboot)).map (moduleRead mem mboot) ∧
      (multibootPrint mem mboot s).kernelPointer =
        s.kernelPointer + totalLength (moduleRead mem mboot) (moduleCount mboot) := by
  have hinv := @forUp_inv MultibootState (fun n t =>
      t.reported = (List.range n).map (moduleRead mem mboot) ∧
        t.kernelPointer = s.kernelPointer + totalLength (moduleRead mem mboot) n)
    (multibootTurn mem mboot) (moduleCount mboot) 0 s ⟨h, by rw [totalLength, UInt32.add_zero]⟩
    (fun i t _ _ ht => by
      obtain ⟨hr, hk⟩ := ht
      refine ⟨?_, ?_⟩
      · show t.reported ++ [moduleRead mem mboot i] = _
        rw [hr, List.range_succ, List.map_append, List.map_singleton]
      · show t.kernelPointer + ((moduleRead mem mboot i).2 - (moduleRead mem mboot i).1) = _
        rw [hk, totalLength, UInt32.add_assoc])
  rw [Nat.zero_add] at hinv
  exact hinv

/-! ### Later requests to the boot allocator -/

structure BootRequest where
  size : UInt32
  align : UInt32

/-- The first address of the region a request is given. -/
def BootRequest.region (r : BootRequest) (kernelPointer : UInt32) : UInt32 :=
  (ponterMoveInt r.size r.align kernelPointer).1

/-- The request can be met before the addresses run out. -/
def BootRequest.Fits (r : BootRequest) (kernelPointer : UInt32) : Prop :=
  kernelPointer ≤ r.region kernelPointer ∧ (r.region kernelPointer).toNat + r.size.toNat < 2 ^ 32

instance (r : BootRequest) (kernelPointer : UInt32) : Decidable (r.Fits kernelPointer) :=
  inferInstanceAs (Decidable (_ ∧ _))

def bootRequest (kernelPointer : UInt32) (r : BootRequest) : Option UInt32 :=
  if r.Fits kernelPointer then some (ponterMoveInt r.size r.align kernelPointer).2 else none

/-- The boot allocator never goes back. -/
theorem bootRequest_ge {k k' : UInt32} {r : BootRequest} (h : bootRequest k r = some k') :
    k.toNat ≤ k'.toNat := by
  unfold bootRequest at h
  split at h
  · rename_i hfit
    cases h
    rw [ponterMoveInt_snd, show (ponterMoveInt r.size r.align k).1 = r.region k from rfl,
      toNat_add_of_lt hfit.2]
    exact (UInt32.le_iff_toNat_le.1 hfit.1).trans (Nat.le_add_right _ _)
  · cases h

/-- What the modules are owed: the reported ranges are those of the list, and no later request is
given a byte of a module. -/
structure MultibootOk (mem : Mem) (mboot : Multiboot) (s : MultibootState) : Prop where
  reported : (multibootPrint mem mboot s).reported =
    (List.range (moduleCount mboot)).map (moduleEntry mem mboot)
  apart : ∀ (rs : List BootRequest) (k : UInt32) (r : BootRequest),
    run bootRequest (multibootPrint mem mboot s).kernelPointer rs = some k →
    r.Fits k → ∀ i < moduleCount mboot, ∀ x : ℕ,
      (r.region k).toNat ≤ x → x < (r.region k).toNat + r.size.toNat →
        ¬ ((moduleEntry mem mboot i).1.toNat ≤ x ∧ x < (moduleEntry mem mboot i).2.toNat)

/-- A module that reaches past `kernel_pointer` is given out by the next request that is large
enough. -/
theorem not_apart_of_lt {k lo hi : UInt32} (hlo : lo < hi) (hk : k < hi) :
    ∃ r : BootRequest, r.Fits k ∧ ∃ x : ℕ, (r.region k).toNat ≤ x ∧
      x < (r.region k).toNat + r.size.toNat ∧ lo.toNat ≤ x ∧ x < hi.toNat := by
  rw [UInt32.lt_iff_toNat_lt] at hlo hk
  have hsub : (hi - k).toNat = hi.toNat - k.toNat := toNat_sub_of_le (by omega)
  have hhi := hi.toNat_lt
  have hregion : (BootRequest.region ⟨hi - k, 0⟩ k).toNat = k.toNat := rfl
  refine ⟨⟨hi - k, 0⟩, ⟨UInt32.le_iff_toNat_le.2 (le_refl _), ?_⟩, hi.toNat - 1, ?_, ?_, ?_, ?_⟩
  · rw [hregion, hsub]
    omega
  · rw [hregion]
    omega
  · rw [hregion, hsub]
    omega
  · omega
  · omega

theorem totalLength_congr {f g : ℕ → UInt32 × UInt32} {n : ℕ} (h : ∀ i < n, f i = g i) :
    totalLength f n = totalLength g n := by
  induction n with
  | zero => rfl
  | succ n ih =>
    rw [totalLength, totalLength, ih fun i hi => h i (by omega), h n (Nat.lt_succ_self n)]

/-- The table's words at the places the loop reads are those of the entries. -/
def ReadsAgree (mem : Mem) (mboot : Multiboot) : Prop :=
  ∀ i < moduleCount mboot, moduleRead mem mboot i = moduleEntry mem mboot i

/-- The modules, empty ones apart, end below `end_kernel` plus their lengths. -/
def EndsBelow (mem : Mem) (mboot : Multiboot) (endKernel : UInt32) : Prop :=
  ∀ i < moduleCount mboot, (moduleEntry mem mboot i).1 < (moduleEntry mem mboot i).2 →
    (moduleEntry mem mboot i).2 ≤
      endKernel + totalLength (moduleEntry mem mboot) (moduleCount mboot)

theorem reported_iff (mem : Mem) (mboot : Multiboot) {s : MultibootState} (h : s.reported = []) :
    (multibootPrint mem mboot s).reported =
        (List.range (moduleCount mboot)).map (moduleEntry mem mboot) ↔
      ReadsAgree mem mboot := by
  rw [(multibootPrint_eq mem mboot s h).1, List.map_inj_left]
  simp only [List.mem_range]
  rfl

theorem kernelPointer_eq {mem : Mem} {mboot : Multiboot} {s : MultibootState}
    (h : s.reported = []) (hr : ReadsAgree mem mboot) :
    (multibootPrint mem mboot s).kernelPointer =
      s.kernelPointer + totalLength (moduleEntry mem mboot) (moduleCount mboot) := by
  rw [(multibootPrint_eq mem mboot s h).2, totalLength_congr hr]

/-- A module left uncovered is lost: nothing more is needed than that the loop read the list. -/
theorem multiboot_not_ok {mem : Mem} {mboot : Multiboot} {s : MultibootState}
    (h : s.reported = []) (hr : ReadsAgree mem mboot)
    (hends : ¬ EndsBelow mem mboot s.kernelPointer) : ¬ MultibootOk mem mboot s := by
  intro hok
  refine hends fun i hi hne => ?_
  by_contra hlt
  rw [UInt32.not_le, ← kernelPointer_eq h hr] at hlt
  obtain ⟨r, hfit, x, h1, h2, h3, h4⟩ := not_apart_of_lt hne hlt
  exact hok.apart [] _ r rfl hfit i hi x h1 h2 ⟨h3, h4⟩

/-- **Protecting the modules, exactly.**  The ranges are reported rightly and no later region touches
a module if and only if the words the loop reads agree with the list and every module that is not
empty ends below `end_kernel` plus the modules' lengths. -/
theorem multiboot_ok_iff (mem : Mem) (mboot : Multiboot) (endKernel moduleStart : UInt32) :
    MultibootOk mem mboot ⟨moduleStart, endKernel, []⟩ ↔
      ReadsAgree mem mboot ∧ EndsBelow mem mboot endKernel := by
  constructor
  · intro hok
    have hr := (reported_iff mem mboot rfl).1 hok.reported
    refine ⟨hr, ?_⟩
    by_contra hends
    exact multiboot_not_ok (s := ⟨moduleStart, endKernel, []⟩) rfl hr hends hok
  · rintro ⟨hr, hends⟩
    refine ⟨(reported_iff mem mboot rfl).2 hr, ?_⟩
    rintro rs k r hrun hfit i hi x hlo hhi ⟨h3, h4⟩
    generalize hk₁ : (multibootPrint mem mboot ⟨moduleStart, endKernel, []⟩).kernelPointer = k₁
      at hrun
    have hk := run_inv (fun k => k₁.toNat ≤ k.toNat)
      (fun _ _ _ hk hs => hk.trans (bootRequest_ge hs)) rs k₁ k (le_refl _) hrun
    have hmod := hends i hi (UInt32.lt_iff_toNat_lt.2 (by omega))
    have hk₂ : k₁ = endKernel + totalLength (moduleEntry mem mboot) (moduleCount mboot) :=
      hk₁.symm.trans (kernelPointer_eq rfl hr)
    rw [← hk₂, UInt32.le_iff_toNat_le] at hmod
    have hreg := UInt32.le_iff_toNat_le.1 hfit.1
    omega

/-- One module of 4 KiB, loaded at the page boundary after a kernel that ends at `0x110800`: its
second half is handed out again. -/
theorem multiboot_not_ok_gap :
    ¬ MultibootOk (write32 (write32 (fun _ => 0) 0x9000 0x111000) 0x9004 0x112000)
      ⟨8, 1, 0x9000⟩ ⟨0, 0x110800, []⟩ := by
  generalize hm : write32 (write32 (fun _ => 0) 0x9000 0x111000) 0x9004 0x112000 = mem
  have hstart : read32 mem 0x9000 = 0x111000 := by
    rw [← hm, read32_write32_of_apart _ _ (by decide), read32_write32_same]
  have hend : read32 mem 0x9004 = 0x112000 := by
    rw [← hm, read32_write32_same]
  have hentry : moduleEntry mem ⟨8, 1, 0x9000⟩ 0 = (0x111000, 0x112000) := by
    simp only [moduleEntry, (by decide : (0x9000 : UInt32) + 16 * UInt32.ofNat 0 = 0x9000),
      (by decide : (0x9000 : UInt32) + 4 = 0x9004), hstart, hend]
  have hread : moduleRead mem ⟨8, 1, 0x9000⟩ 0 = (0x111000, 0x112000) := by
    simp only [moduleRead, (by decide : (0x9000 : UInt32) + 4 * (8 * UInt32.ofNat 0) = 0x9000),
      (by decide : (0x9000 : UInt32) + 8 * UInt32.ofNat 0 + 4 = 0x9004), hstart, hend]
  have hcount : moduleCount ⟨8, 1, 0x9000⟩ = 1 := by decide
  refine multiboot_not_ok rfl ?_ ?_
  · intro i hi
    obtain rfl : i = 0 := by omega
    rw [hread, hentry]
  · intro hends
    have hle := hends 0 (by omega)
    rw [hcount, totalLength, totalLength, hentry] at hle
    have hbad : ¬ (0x112000 : UInt32) ≤ 0x110800 + (0 + (0x112000 - 0x111000)) := by decide
    exact hbad (hle (by decide))

end CometOS
