import CometOS.Idt

/-!
# The segment descriptors (`arch/i386/gdt.c`, `arch/i386/boot.S`)

`gdt.c` gives the table its contents; what it cannot give is the address of the task state segment,
which `boot.S` puts in before the table is loaded.  `readSegment` is how the CPU takes a descriptor
apart.  Where the linker puts the table and the segment are parameters.
-/

namespace CometOS

open ByteMemory Word32

/-! ### The code -/

def gran32BitMode : UInt32 := (1 : UInt32) <<< 6

def gran4KibBlocks : UInt32 := (1 : UInt32) <<< 7

/-- `struct gdt_entry`. -/
structure GdtEntry where
  limitLow : UInt16
  baseLow : UInt16
  baseMiddle : UInt8
  access : UInt8
  granularity : UInt8
  baseHigh : UInt8

/-- `GDT_ENTRY`. -/
def gdtEntry (base limit access granularity : UInt32) : GdtEntry where
  limitLow := (limit &&& 0xFFFF).toUInt16
  baseLow := (base >>> 0 &&& 0xFFFF).toUInt16
  baseMiddle := (base >>> 16 &&& 0xFF).toUInt8
  access := (access &&& 0xFF).toUInt8
  granularity := ((limit >>> 16 &&& 0x0F) ||| (granularity &&& 0xF0)).toUInt8
  baseHigh := (base >>> 24 &&& 0xFF).toUInt8

/-- `sizeof(tss)`. -/
def tssSize : UInt32 := 104

def gdt : List GdtEntry :=
  [gdtEntry 0 0 0 0,
    gdtEntry 0 0xFFFFFFFF 0x9A (gran32BitMode ||| gran4KibBlocks),
    gdtEntry 0 0xFFFFFFFF 0x92 (gran32BitMode ||| gran4KibBlocks),
    gdtEntry 0 0xFFFFFFFF 0xFA (gran32BitMode ||| gran4KibBlocks),
    gdtEntry 0 0xFFFFFFFF 0xF2 (gran32BitMode ||| gran4KibBlocks),
    gdtEntry 0 (tssSize - 1) 0xE9 0x00]

/-- An entry as it lies in memory. -/
def GdtEntry.bytes (e : GdtEntry) : List UInt8 :=
  [e.limitLow.toUInt8, (e.limitLow >>> 8).toUInt8, e.baseLow.toUInt8, (e.baseLow >>> 8).toUInt8,
    e.baseMiddle, e.access, e.granularity, e.baseHigh]

/-- The table, as the linker puts it in memory. -/
def gdtBytes : List UInt8 := gdt.flatMap GdtEntry.bytes

/-- What `_start` stores in the table: the address of the task state segment, in three pieces. -/
def bootGdt (gdt tss : UInt32) (m : Mem) : Mem :=
  let ecx := tss
  let m := write16 m (gdt + 0x28) ecx.toUInt16
  let ecx := ecx >>> 16
  let m := write8 m (gdt + 0x28 + 2) ecx.toUInt8
  let ecx := ecx >>> 8
  write8 m (gdt + 0x28 + 7) ecx.toUInt8

/-! ### How the CPU reads a descriptor -/

structure Segment where
  base : ℕ
  limit : ℕ
  access : UInt8
  is32Bit : Bool
  deriving DecidableEq, Repr

/-- A descriptor of the bytes `b`: with the granularity bit the limit counts pages. -/
def segmentOf (b : ℕ → UInt8) : Segment where
  base := (b 2).toNat + 0x100 * (b 3).toNat + 0x10000 * (b 4).toNat + 0x1000000 * (b 7).toNat
  limit :=
    let limit := (b 0).toNat + 0x100 * (b 1).toNat + 0x10000 * ((b 6).toNat % 16)
    if (b 6).toNat / 128 = 1 then 0x1000 * limit + 0xFFF else limit
  access := b 5
  is32Bit := (b 6).toNat / 64 % 2 = 1

/-- Descriptor `i` of the table at `gdt`. -/
def readSegment (m : Mem) (gdt : UInt32) (i : ℕ) : Segment :=
  segmentOf fun k => m (gdt + UInt32.ofNat (8 * i + k))

/-- All of the address space. -/
def flatSegment (access : UInt8) : Segment where
  base := 0
  limit := 0xFFFFFFFF
  access := access
  is32Bit := true

/-- What segment `i` is to be, but for the task state segment. -/
def segments : List Segment :=
  [⟨0, 0, 0, false⟩, flatSegment 0x9A, flatSegment 0x92, flatSegment 0xFA, flatSegment 0xF2]

/-! ### After boot -/

section Boot

variable {m : Mem} {table tss : UInt32}

theorem place_inj {i j : ℕ} (hi : i < 48) (hj : j < 48) :
    table + UInt32.ofNat i = table + UInt32.ofNat j ↔ i = j := by
  constructor
  · intro h
    have h' : UInt32.ofNat i = UInt32.ofNat j := by grind
    have hn := congrArg UInt32.toNat h'
    rwa [toNat_ofNat_of_lt (by omega), toNat_ofNat_of_lt (by omega)] at hn
  · rintro rfl
    rfl

/-- A byte of what `ecx` is shifted down to. -/
theorem toUInt8_shiftRight (a : UInt32) {k : ℕ} (hk : k < 32) :
    (a >>> UInt32.ofNat k).toUInt8 = UInt8.ofNat (a.toNat / 2 ^ k) := by
  apply UInt8.toNat_inj.1
  rw [UInt32.toNat_toUInt8, UInt32.toNat_shiftRight, toNat_ofNat_of_lt (by omega),
    Nat.mod_eq_of_lt hk, Nat.shiftRight_eq_div_pow, UInt8.toNat_ofNat']

/-- The bytes of the table: four of them are stored to. -/
theorem bootGdt_byte {k : ℕ} (hk : k < 48) : bootGdt table tss m (table + UInt32.ofNat k) =
    if k = 0x2F then UInt8.ofNat (tss.toNat / 2 ^ 24)
    else if k = 0x2A then UInt8.ofNat (tss.toNat / 2 ^ 16)
    else if k = 0x28 then UInt8.ofNat tss.toNat
    else if k = 0x29 then UInt8.ofNat (tss.toNat / 2 ^ 8)
    else m (table + UInt32.ofNat k) := by
  have h28 : table + 0x28 = table + UInt32.ofNat 0x28 := rfl
  have h29 : table + 0x28 + 1 = table + UInt32.ofNat 0x29 := by
    rw [UInt32.add_assoc]
    rfl
  have h2A : table + 0x28 + 2 = table + UInt32.ofNat 0x2A := by
    rw [UInt32.add_assoc]
    rfl
  have h2F : table + 0x28 + 7 = table + UInt32.ofNat 0x2F := by
    rw [UInt32.add_assoc]
    rfl
  have h16 : (tss >>> 16).toUInt8 = UInt8.ofNat (tss.toNat / 2 ^ 16) :=
    toUInt8_shiftRight tss (by decide)
  have h24 : (tss >>> 16 >>> 8).toUInt8 = UInt8.ofNat (tss.toNat / 2 ^ 24) := by
    apply UInt8.toNat_inj.1
    simp only [UInt32.toNat_toUInt8, UInt32.toNat_shiftRight, UInt32.reduceToNat,
      Nat.shiftRight_eq_div_pow, Nat.div_div_eq_div_mul, UInt8.toNat_ofNat']
    rfl
  have hlow : UInt8.ofNat tss.toUInt16.toNat = UInt8.ofNat tss.toNat := by
    apply UInt8.toNat_inj.1
    simp only [UInt8.toNat_ofNat', UInt32.toNat_toUInt16]
    omega
  have hhigh : UInt8.ofNat (tss.toUInt16.toNat / 0x100) = UInt8.ofNat (tss.toNat / 2 ^ 8) := by
    apply UInt8.toNat_inj.1
    simp only [UInt8.toNat_ofNat', UInt32.toNat_toUInt16]
    omega
  simp only [bootGdt, write8, write16, h2F, h2A, h29, h16, h24, hlow, hhigh]
  simp only [h28, place_inj hk (show 0x2F < 48 by decide),
    place_inj hk (show 0x2A < 48 by decide), place_inj hk (show 0x28 < 48 by decide),
    place_inj hk (show 0x29 < 48 by decide)]

/-- A descriptor none of whose bytes is stored to. -/
theorem readSegment_bootGdt (h : ∀ k < 48, m (table + UInt32.ofNat k) = gdtBytes.getD k 0) {i : ℕ}
    (hi : i < 5) :
    readSegment (bootGdt table tss m) table i = segmentOf fun k => gdtBytes.getD (8 * i + k) 0 := by
  have hbyte : ∀ k < 8, bootGdt table tss m (table + UInt32.ofNat (8 * i + k)) =
      gdtBytes.getD (8 * i + k) 0 := by
    intro k hk
    rw [bootGdt_byte (by omega), if_neg (by omega), if_neg (by omega), if_neg (by omega),
      if_neg (by omega), h _ (by omega)]
  simp only [readSegment, segmentOf, hbyte 0 (by decide), hbyte 1 (by decide), hbyte 2 (by decide),
    hbyte 3 (by decide), hbyte 4 (by decide), hbyte 5 (by decide), hbyte 6 (by decide),
    hbyte 7 (by decide)]

/-- **The segments after boot.**  Wherever table and task state segment lie, the code and data segments
are all of memory; but the descriptor of the task state segment has the low half of its address for a
limit and never both its address and its size. -/
theorem bootGdt_segments (h : ∀ k < 48, m (table + UInt32.ofNat k) = gdtBytes.getD k 0) :
    (∀ i < 5, readSegment (bootGdt table tss m) table i = segments.getD i ⟨0, 0, 0, false⟩) ∧
    readSegment (bootGdt table tss m) table 5 =
      { base := tss.toNat / 2 ^ 16 % 2 ^ 8 + tss.toNat / 2 ^ 24 * 2 ^ 24
        limit := tss.toNat % 2 ^ 16, access := 0xE9, is32Bit := false } ∧
    ¬ ((readSegment (bootGdt table tss m) table 5).base = tss.toNat ∧
      tssSize.toNat - 1 ≤ (readSegment (bootGdt table tss m) table 5).limit) := by
  have htss : readSegment (bootGdt table tss m) table 5 =
      { base := tss.toNat / 2 ^ 16 % 2 ^ 8 + tss.toNat / 2 ^ 24 * 2 ^ 24
        limit := tss.toNat % 2 ^ 16, access := 0xE9, is32Bit := false } := by
    have hlt := tss.toNat_lt
    have hbyte : ∀ k < 8, bootGdt table tss m (table + UInt32.ofNat (8 * 5 + k)) =
        if k = 7 then UInt8.ofNat (tss.toNat / 2 ^ 24)
        else if k = 2 then UInt8.ofNat (tss.toNat / 2 ^ 16)
        else if k = 0 then UInt8.ofNat tss.toNat
        else if k = 1 then UInt8.ofNat (tss.toNat / 2 ^ 8)
        else gdtBytes.getD (8 * 5 + k) 0 := by
      intro k hk
      rw [bootGdt_byte (by omega), h _ (by omega)]
      simp only [show 8 * 5 + k = 0x2F ↔ k = 7 by omega, show 8 * 5 + k = 0x2A ↔ k = 2 by omega,
        show 8 * 5 + k = 0x28 ↔ k = 0 by omega, show 8 * 5 + k = 0x29 ↔ k = 1 by omega]
    have h0 := hbyte 0 (by decide)
    have h1 := hbyte 1 (by decide)
    have h2 := hbyte 2 (by decide)
    have h3 : _ = (0 : UInt8) := hbyte 3 (by decide)
    have h4 : _ = (0 : UInt8) := hbyte 4 (by decide)
    have h5 : _ = (0xE9 : UInt8) := hbyte 5 (by decide)
    have h6 : _ = (0 : UInt8) := hbyte 6 (by decide)
    have h7 := hbyte 7 (by decide)
    simp only [readSegment, segmentOf, h0, h1, h2, h3, h4, h5, h6, h7, Segment.mk.injEq]
    refine ⟨?_, ?_, trivial, rfl⟩
    · simp only [UInt8.toNat_ofNat', if_true, if_false, Nat.reduceEqDiff]
      simp
      omega
    · simp
      omega
  refine ⟨?_, htss, ?_⟩
  · intro i hi
    rw [readSegment_bootGdt h hi]
    revert i
    decide
  · rw [htss]
    rintro ⟨hbase, hlimit⟩
    have hsize : tssSize.toNat = 104 := rfl
    have hlt := tss.toNat_lt
    have hdiv : tss.toNat / 2 ^ 16 / 2 ^ 8 = tss.toNat / 2 ^ 24 := Nat.div_div_eq_div_mul _ _ _
    simp only at hbase hlimit
    omega

/-- A table and a task state segment where a linker could have put them. -/
theorem bootGdt_segments_linked :
    readSegment (bootGdt 0x105000 0x105040 fun x => gdtBytes.getD (x.toNat - 0x105000) 0) 0x105000 5 =
      { base := 0x10, limit := 0x5040, access := 0xE9, is32Bit := false } :=
  (bootGdt_segments fun k hk => by
    rw [toNat_add_of_lt (by rw [toNat_ofNat_of_lt (by omega)]; simp; omega),
      toNat_ofNat_of_lt (by omega)]
    exact congrArg (gdtBytes.getD · 0) (Nat.add_sub_cancel_left 0x105000 k)).2.1

end Boot

end CometOS
