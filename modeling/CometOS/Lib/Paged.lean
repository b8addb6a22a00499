import CometOS.Lib.ByteMemory

/-!
# Memory behind a translation of addresses

The bytes of an access are looked up by a translation, which may fail for some of them: then nothing is
read or stored.  A word's four bytes are translated before any of them is touched, since the store may be
to what the translation itself is made from.

`Direct` says that some bytes are found at their own addresses.  There an access is one to plain memory.
-/

namespace Paged

open ByteMemory Word32

/-- Where the byte at an address is, if anywhere. -/
abbrev Translation := UInt32 → Option UInt32

def load8 (tr : Translation) (m : Mem) (a : UInt32) : Option UInt8 := (tr a).map m

def store8 (tr : Translation) (a : UInt32) (b : UInt8) (m : Mem) : Option Mem :=
  (tr a).map fun p => Function.update m p b

def load32 (tr : Translation) (m : Mem) (a : UInt32) : Option UInt32 :=
  (tr a).bind fun p => (tr (a + 1)).bind fun q => (tr (a + 2)).bind fun r => (tr (a + 3)).map fun s =>
    UInt32.ofNat ((m p).toNat + 0x100 * (m q).toNat + 0x10000 * (m r).toNat +
      0x1000000 * (m s).toNat)

def store32 (tr : Translation) (a v : UInt32) (m : Mem) : Option Mem :=
  (tr a).bind fun p => (tr (a + 1)).bind fun q => (tr (a + 2)).bind fun r => (tr (a + 3)).map fun s =>
    fun x =>
      if x = p then UInt8.ofNat v.toNat
      else if x = q then UInt8.ofNat (v.toNat / 0x100)
      else if x = r then UInt8.ofNat (v.toNat / 0x10000)
      else if x = s then UInt8.ofNat (v.toNat / 0x1000000)
      else m x

/-- The `n` bytes from `a` on are found at their own addresses. -/
def Direct (tr : Translation) (a : UInt32) (n : ℕ) : Prop :=
  ∀ i : UInt32, i.toNat < n → tr (a + i) = some (a + i)

section

variable {tr : Translation} {a b : UInt32} {n k : ℕ}

theorem Direct.at (h : Direct tr a n) (hn : 0 < n) : tr a = some a := by
  have h0 := h 0 hn
  rwa [UInt32.add_zero] at h0

/-- A part of them. -/
theorem Direct.part (h : Direct tr a n) (hb : (b - a).toNat + k ≤ n) : Direct tr b k := by
  intro i hi
  have hn : (b - a + i).toNat < n := by
    rw [UInt32.toNat_add]
    exact lt_of_le_of_lt (Nat.mod_le _ _) (by omega)
  have hat := h (b - a + i) hn
  rwa [show a + (b - a + i) = b + i by grind] at hat

theorem load8_direct (m : Mem) (h : Direct tr a 1) : load8 tr m a = some (m a) := by
  rw [load8, h.at Nat.one_pos, Option.map_some]

theorem store8_direct (m : Mem) (v : UInt8) (h : Direct tr a 1) :
    store8 tr a v m = some (Function.update m a v) := by
  rw [store8, h.at Nat.one_pos, Option.map_some]

theorem load32_direct (m : Mem) (h : Direct tr a 4) : load32 tr m a = some (read32 m a) := by
  rw [load32, h.at (by decide), h 1 (by decide), h 2 (by decide), h 3 (by decide)]
  rfl

theorem store32_direct (m : Mem) (v : UInt32) (h : Direct tr a 4) :
    store32 tr a v m = some (write32 m a v) := by
  rw [store32, h.at (by decide), h 1 (by decide), h 2 (by decide), h 3 (by decide)]
  rfl

end

end Paged
