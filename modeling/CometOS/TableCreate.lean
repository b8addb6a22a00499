import CometOS.FrameAlloc

/-!
# Making a page table

`table_create` with paging on, against what it is for: a frame all of whose words hold the flags, and
nothing else changed.  It clears the frame with `memset`, and the length it gives is the address
0x1000 words behind the start of the frame, taken for a number: a frame at `f` has
`f + 0x4000` bytes cleared from `f` on.
-/

namespace CometOS

open ByteMemory Loop Word32

/-! ### What it is for -/

/-- Each word of the table holds the flags; of the memory outside only the frame's own entry in the
bitmap has changed. -/
structure NewTable (m : Machine) (flags table : UInt32) (m' : Machine) : Prop where
  ne_zero : table ≠ 0
  aligned : PageAligned table
  words : ∀ i : UInt32, i.toNat < 1024 → pageWord m'.mem table i = flags
  outside : ∀ a : UInt32, 0x1000 ≤ (a - table).toNat → m'.mem a = m.mem a
  rest : m' = { m with
    mem := m'.mem, frameBitmap := bitmapEntrieSet (table / 0x1000) 1 m.frameBitmap }

/-- `table_create` returns a new table, or `NULL` and has changed nothing. -/
def TableCreated (m : Machine) (flags : UInt32) : Prop :=
  ∃ table m', tableCreate flags m = some (table, m') ∧
    (table = 0 ∧ m' = m ∨ NewTable m flags table m')

/-- Clearing from `f` on clears the frame only: what is behind it, as far as the length goes, is 0
already.  At `0xFFFFC000` the length comes out as 0, and nothing is cleared. -/
structure ClearsOnly (m : Machine) (flags f : UInt32) : Prop where
  behind : ∀ x : ℕ, 0x1000 ≤ x → x < (f + 0x4000).toNat → m.mem (f + UInt32.ofNat x) = 0
  nothing : f = 0xFFFFC000 → ∀ i : UInt32, i.toNat < 1024 → pageWord m.mem f i ||| flags = flags

/-- `table_create` does no harm: the frame it comes to is cleared alone, or it is frame 0, which then
is marked as it was. -/
def TableFits (m : Machine) (flags : UInt32) : Prop :=
  ∃ i, NextFree m i ∧ (i * 0x1000 = 0 → m.frameBitmap.words 0 = 1) ∧
    (i * 0x1000 ≠ 0 → ClearsOnly m flags (i * 0x1000))

/-! ### Filling and clearing -/

section Fill

variable {table flags : UInt32}

/-- A page within the length is cleared. -/
theorem pageWord_fill (mem : Mem) {n : ℕ} {i : UInt32} (hi : i.toNat < 1024) (hn : 0x1000 ≤ n) :
    pageWord (fill mem table 0 n) table i = 0 := by
  have hmul : (4 * i).toNat = 4 * i.toNat :=
    toNat_mul_of_lt (by simp only [UInt32.reduceToNat]; omega)
  have hzero : ∀ j : UInt32, j.toNat < 4 → fill mem table 0 n (table + 4 * i + j) = 0 := by
    intro j hj
    have hplace : (table + 4 * i + j - table).toNat = 4 * i.toNat + j.toNat := by
      rw [show table + 4 * i + j - table = 4 * i + j by grind, toNat_add_of_lt (by omega), hmul]
    rw [fill, hplace, if_pos (by omega)]
  have hread : pageWord (fill mem table 0 n) table i = read32 (fun _ => 0) (table + 4 * i) :=
    read32_congr hzero
  rw [hread]
  simp [read32]

/-- The length of the clearing is 0 for one frame, and otherwise covers the frame. -/
theorem clear_length (ht : PageAligned table) (h0 : table ≠ 0) :
    table = 0xFFFFC000 ∧ (table + 0x4000).toNat = 0 ∨
      table ≠ 0xFFFFC000 ∧ 0x1000 ≤ (table + 0x4000).toNat := by
  have hpos := toNat_pos h0
  have hlt := table.toNat_lt
  have hiff : table = 0xFFFFC000 ↔ table.toNat = 0xFFFFC000 := by
    rw [← UInt32.toNat_inj]
    rfl
  rw [pageAligned_iff] at ht
  rw [Ne, hiff, UInt32.toNat_add, show (0x4000 : UInt32).toNat = 0x4000 from rfl]
  omega

end Fill

section Table

variable {m : Machine} {table flags : UInt32}

theorem tableFill_eq (table flags : UInt32) (m : Machine) :
    tableFill table flags m = { m with mem := (tableFill table flags m).mem } := by
  unfold tableFill
  by_cases hpaging : m.pagingState = 0
  · rw [if_pos hpaging]
  · rw [if_neg hpaging]

theorem tableFill_mem (hpaging : m.pagingState ≠ 0) :
    (tableFill table flags m).mem =
      if flags ≠ 0 then
        fillTable table (fun _ old => old ||| flags)
          (fill m.mem table 0 (table + 0x4000).toNat)
      else fill m.mem table 0 (table + 0x4000).toNat := by
  unfold tableFill
  rw [if_neg hpaging]

/-- The words of the table: the flags over what clearing has left. -/
theorem tableFill_words (hpaging : m.pagingState ≠ 0) (ht : PageAligned table) {i : UInt32}
    (hi : i.toNat < 1024) :
    pageWord (tableFill table flags m).mem table i =
      pageWord (fill m.mem table 0 (table + 0x4000).toNat) table i ||| flags := by
  rw [tableFill_mem hpaging]
  by_cases hflags : flags = 0
  · rw [if_neg (not_not.2 hflags), hflags, UInt32.or_zero]
  · rw [if_pos hflags, pageWord_fillTable _ _ ht ht hi, if_pos rfl]

/-- The memory outside: what clearing has left. -/
theorem tableFill_outside (hpaging : m.pagingState ≠ 0) {a : UInt32}
    (ha : 0x1000 ≤ (a - table).toNat) :
    (tableFill table flags m).mem a = fill m.mem table 0 (table + 0x4000).toNat a := by
  rw [tableFill_mem hpaging]
  split
  · exact fillTable_outside _ _ ha
  · rfl

/-- **Filling a table** makes it what it is for exactly when clearing clears it alone. -/
theorem newTable_iff (hpaging : m.pagingState ≠ 0) (ht : PageAligned table) (h0 : table ≠ 0) :
    NewTable m flags table (tableFill table flags (frameSet table m)) ↔ ClearsOnly m flags table := by
  have hpaging' : (frameSet table m).pagingState ≠ 0 := hpaging
  have hmem : (frameSet table m).mem = m.mem := rfl
  have hwords : (∀ i : UInt32, i.toNat < 1024 →
        pageWord (tableFill table flags (frameSet table m)).mem table i = flags) ↔
      (table = 0xFFFFC000 → ∀ i : UInt32, i.toNat < 1024 →
        pageWord m.mem table i ||| flags = flags) := by
    rcases clear_length ht h0 with ⟨htop, hlength⟩ | ⟨htop, hlength⟩
    · rw [forall_prop_of_true htop]
      refine forall_congr' fun i => imp_congr_right fun hi => ?_
      rw [tableFill_words hpaging' ht hi, hmem, hlength, fill_zero]
    · refine iff_of_true (fun i hi => ?_) fun h => absurd h htop
      rw [tableFill_words hpaging' ht hi, pageWord_fill _ hi hlength, UInt32.zero_or]
  have houtside : (∀ a : UInt32, 0x1000 ≤ (a - table).toNat →
        (tableFill table flags (frameSet table m)).mem a = m.mem a) ↔
      ∀ x : ℕ, 0x1000 ≤ x → x < (table + 0x4000).toNat → m.mem (table + UInt32.ofNat x) = 0 := by
    constructor
    · intro h x hlo hhi
      have hlt := (table + 0x4000).toNat_lt
      have hplace : (table + UInt32.ofNat x - table).toNat = x := by
        rw [show table + UInt32.ofNat x - table = UInt32.ofNat x by grind,
          toNat_ofNat_of_lt (by omega)]
      have hx := h (table + UInt32.ofNat x) (by omega)
      rw [tableFill_outside hpaging' (by omega), hmem, fill, hplace, if_pos hhi] at hx
      exact hx.symm
    · intro h a ha
      rw [tableFill_outside hpaging' ha, hmem, fill]
      split
      · next hlt =>
        have ha' := h _ ha hlt
        rw [ofNat_toNat, show table + (a - table) = a by grind] at ha'
        exact ha'.symm
      · rfl
  constructor
  · intro h
    exact ⟨houtside.1 h.outside, hwords.1 h.words⟩
  · intro h
    exact ⟨h0, ht, hwords.2 h.nothing, houtside.2 h.behind, tableFill_eq _ _ _⟩

theorem TableCreated.fits (hpaging : m.pagingState ≠ 0) (h : TableCreated m flags) :
    TableFits m flags := by
  obtain ⟨table, m', hcreate, hcases⟩ := h
  obtain ⟨⟨frame, m₁⟩, halloc, -⟩ := Option.map_eq_some_iff.1 hcreate
  rw [tableCreate_eq flags halloc] at hcreate
  obtain ⟨rfl, hm'⟩ := Prod.mk.inj (Option.some.inj hcreate)
  obtain ⟨i, hi, rfl, -⟩ := frameAlloc_iff.1 halloc
  refine ⟨i, hi, fun h0 => ?_, fun h0 => ?_⟩
  · rw [if_pos h0] at hm'
    rcases hcases with ⟨_, rfl⟩ | hnew
    · rw [h0] at hm'
      exact frameSet_zero_iff.1 hm'
    · exact absurd h0 hnew.ne_zero
  · rw [if_neg h0] at hm'
    rcases hcases with ⟨hzero, _⟩ | hnew
    · exact absurd hzero h0
    · rw [← hm'] at hnew
      exact (newTable_iff hpaging (pageAligned_mul i) h0).1 hnew

end Table

end CometOS
