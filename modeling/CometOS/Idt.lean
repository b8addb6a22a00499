import CometOS.Lib.ByteMemory

/-!
# The interrupt descriptor table (`arch/i386/irq/idt.c`)

The table lies in memory at `idt`, eight bytes for each of 256 vectors.  `readGate` is how the CPU takes
an entry apart.  Where the linker puts the entry points `isr0` to `isr31` and `irq0` to `irq15` is a
parameter.
-/

namespace CometOS

open ByteMemory Word32

def idtTypeInterrupt : UInt8 := 0xE

def idtFlagPresent : UInt8 := (1 : UInt8) <<< 7

/-- A byte store. -/
def write8 (m : Mem) (a : UInt32) (v : UInt8) : Mem := fun x => if x = a then v else m x

/-- `idt_format_normal_entry`, with the fields of `struct idt_entry` in order.  `flags` keeps the low
byte of what is put together for it. -/
def idtFormatNormalEntry (entry handler : UInt32) (type rpl : UInt8) (m : Mem) : Mem :=
  let m := write16 m (entry + 0) (handler >>> 0 &&& 0xFFFF).toUInt16
  let m := write16 m (entry + 2) 0x08
  let m := write8 m (entry + 4) 0
  let m := write8 m (entry + 5) (idtFlagPresent ||| rpl <<< 5 ||| type <<< 0)
  write16 m (entry + 6) (handler >>> 16 &&& 0xFFFF).toUInt16

/-- The calls that `idt_initialize` makes: the vector, the entry point and `rpl`. -/
def idtCalls (isr irq : ℕ → UInt32) : List (ℕ × UInt32 × UInt8) :=
  (List.range 32).map (fun n => (n, isr n, 0x0)) ++ [(32, irq 0, 0x0)] ++
    (List.range 16).map fun n => (32 + n, irq n, if n = 13 then 0x8E else 0x0)

def idtCall (idt : UInt32) (m : Mem) (call : ℕ × UInt32 × UInt8) : Mem :=
  idtFormatNormalEntry (idt + 8 * UInt32.ofNat call.1) call.2.1 idtTypeInterrupt call.2.2 m

/-- `idt_initialize`, up to `lidt`. -/
def idtInitialize (idt : UInt32) (isr irq : ℕ → UInt32) (m : Mem) : Mem :=
  (idtCalls isr irq).foldl (idtCall idt) (fill m idt 0 2048)

/-! ### How the CPU reads an entry -/

structure Gate where
  offset : UInt32
  selector : UInt16
  type : UInt8
  system : Bool
  dpl : UInt8
  present : Bool
  deriving DecidableEq, Repr

/-- The gate at address `a`. -/
def readGate (m : Mem) (a : UInt32) : Gate where
  offset := (read16 m (a + 0)).toUInt32 ||| (read16 m (a + 6)).toUInt32 <<< 16
  selector := read16 m (a + 2)
  type := m (a + 5) &&& 0xF
  system := (m (a + 5) >>> 4) &&& 1 = 0
  dpl := (m (a + 5) >>> 5) &&& 3
  present := (m (a + 5) >>> 7) &&& 1 = 1

/-- Vector `v`'s. -/
def idtGate (m : Mem) (idt : UInt32) (v : ℕ) : Gate := readGate m (idt + 8 * UInt32.ofNat v)

/-- An interrupt gate of the kernel's code segment. -/
def interruptGate (handler : UInt32) (dpl : UInt8) : Gate where
  offset := handler
  selector := 0x08
  type := 0xE
  system := true
  dpl := dpl
  present := true

/-! ### One entry -/

section Entry

variable {m : Mem} {entry handler : UInt32} {rpl : UInt8}

theorem write8_of_far (m : Mem) (a : UInt32) (v : UInt8) {x : UInt32} (h : 1 ≤ (x - a).toNat) :
    write8 m a v x = m x := by
  refine if_neg fun hx => ?_
  rw [hx, UInt32.sub_self] at h
  exact absurd h (by decide)

theorem idtFormatNormalEntry_of_far {x : UInt32} (h : 8 ≤ (x - entry).toNat) (type : UInt8) :
    idtFormatNormalEntry entry handler type rpl m x = m x := by
  have hfar : ∀ i : UInt32, i.toNat < 8 → 8 - i.toNat ≤ (x - (entry + i)).toNat := by
    intro i hi
    rw [show x - (entry + i) = x - entry - i by grind, toNat_sub_of_le (by omega)]
    omega
  have h0 : 8 ≤ _ := hfar 0 (by decide)
  have h2 : 6 ≤ _ := hfar 2 (by decide)
  have h4 : 4 ≤ _ := hfar 4 (by decide)
  have h5 : 3 ≤ _ := hfar 5 (by decide)
  have h6 : 2 ≤ _ := hfar 6 (by decide)
  unfold idtFormatNormalEntry
  rw [write16_of_far _ _ _ h6, write8_of_far _ _ _ (by omega), write8_of_far _ _ _ (by omega),
    write16_of_far _ _ _ (by omega), write16_of_far _ _ _ (by omega)]

theorem toNat_half (a : UInt32) : (a &&& 0xFFFF).toUInt16.toNat = a.toNat % 2 ^ 16 := by
  have hmask := toNat_and_low a 16 (by decide)
  rw [UInt32.toNat_toUInt16]
  show (a &&& UInt32.ofNat (2 ^ 16 - 1)).toNat % 2 ^ 16 = _
  rw [hmask, Nat.mod_mod]

/-- The two halves of an address, put together again. -/
theorem halves (a : UInt32) : (a >>> 0 &&& 0xFFFF).toUInt16.toUInt32 |||
    (a >>> 16 &&& 0xFFFF).toUInt16.toUInt32 <<< 16 = a := by
  have ha := a.toNat_lt
  have hlow : (a >>> 0).toNat = a.toNat := by simp
  have hhigh : (a >>> 16).toNat = a.toNat / 2 ^ 16 := by
    rw [UInt32.toNat_shiftRight]
    exact Nat.shiftRight_eq_div_pow _ _
  have hlt : a.toNat / 2 ^ 16 < 2 ^ 16 := by omega
  apply eq_of_toNat
  rw [UInt32.toNat_or, UInt32.toNat_shiftLeft, UInt16.toNat_toUInt32, UInt16.toNat_toUInt32,
    toNat_half, toNat_half, hlow, hhigh, show (16 : UInt32).toNat % 32 = 16 from rfl,
    Nat.mod_eq_of_lt hlt, Nat.or_comm, Nat.mod_eq_of_lt (by rw [Nat.shiftLeft_eq]; omega),
    ← Nat.shiftLeft_add_eq_or_of_lt (by omega), Nat.shiftLeft_eq]
  omega

theorem flags_fields : ∀ r : Fin 256,
    (idtFlagPresent ||| UInt8.ofNat r <<< 5 ||| idtTypeInterrupt <<< 0) &&& 0xF = 0xE ∧
    ((idtFlagPresent ||| UInt8.ofNat r <<< 5 ||| idtTypeInterrupt <<< 0) >>> 4) &&& 1 = 0 ∧
    ((idtFlagPresent ||| UInt8.ofNat r <<< 5 ||| idtTypeInterrupt <<< 0) >>> 5) &&& 3 =
      UInt8.ofNat r &&& 3 ∧
    ((idtFlagPresent ||| UInt8.ofNat r <<< 5 ||| idtTypeInterrupt <<< 0) >>> 7) &&& 1 = 1 := by
  decide +kernel

/-- A field of an entry cannot see a store to another. -/
theorem read16_write16_field (m : Mem) (entry : UInt32) (v : UInt16) {i j : UInt32}
    (h : 2 ≤ (i - j).toNat ∧ 2 ≤ (i + 1 - j).toNat) :
    read16 (write16 m (entry + j) v) (entry + i) = read16 m (entry + i) := by
  unfold read16
  rw [write16_of_far _ _ _ (by rw [show entry + i - (entry + j) = i - j by grind]; exact h.1),
    write16_of_far _ _ _ (by rw [show entry + i + 1 - (entry + j) = i + 1 - j by grind]; exact h.2)]

theorem read16_write8_field (m : Mem) (entry : UInt32) (v : UInt8) {i j : UInt32}
    (h : 1 ≤ (i - j).toNat ∧ 1 ≤ (i + 1 - j).toNat) :
    read16 (write8 m (entry + j) v) (entry + i) = read16 m (entry + i) := by
  unfold read16
  rw [write8_of_far _ _ _ (by rw [show entry + i - (entry + j) = i - j by grind]; exact h.1),
    write8_of_far _ _ _ (by rw [show entry + i + 1 - (entry + j) = i + 1 - j by grind]; exact h.2)]

theorem readGate_idtFormatNormalEntry (m : Mem) (entry handler : UInt32) (rpl : UInt8) :
    readGate (idtFormatNormalEntry entry handler idtTypeInterrupt rpl m) entry =
      interruptGate handler (rpl &&& 3) := by
  have hlow : read16 (idtFormatNormalEntry entry handler idtTypeInterrupt rpl m) (entry + 0) =
      (handler >>> 0 &&& 0xFFFF).toUInt16 := by
    unfold idtFormatNormalEntry
    rw [read16_write16_field _ _ _ (by decide), read16_write8_field _ _ _ (by decide),
      read16_write8_field _ _ _ (by decide), read16_write16_field _ _ _ (by decide),
      read16_write16_same]
  have hselector : read16 (idtFormatNormalEntry entry handler idtTypeInterrupt rpl m) (entry + 2) =
      0x08 := by
    unfold idtFormatNormalEntry
    rw [read16_write16_field _ _ _ (by decide), read16_write8_field _ _ _ (by decide),
      read16_write8_field _ _ _ (by decide), read16_write16_same]
  have hhigh : read16 (idtFormatNormalEntry entry handler idtTypeInterrupt rpl m) (entry + 6) =
      (handler >>> 16 &&& 0xFFFF).toUInt16 := read16_write16_same _ _ _
  have hflags : idtFormatNormalEntry entry handler idtTypeInterrupt rpl m (entry + 5) =
      (idtFlagPresent ||| rpl <<< 5 ||| idtTypeInterrupt <<< 0) := by
    unfold idtFormatNormalEntry
    rw [write16_of_far _ _ _ (by rw [show entry + 5 - (entry + 6) = (5 : UInt32) - 6 by grind]; decide)]
    exact if_pos rfl
  have hfields := flags_fields ⟨rpl.toNat, rpl.toNat_lt⟩
  rw [show UInt8.ofNat (⟨rpl.toNat, rpl.toNat_lt⟩ : Fin 256).val = rpl from UInt8.ofNat_toNat] at hfields
  obtain ⟨htype, hsystem, hdpl, hpresent⟩ := hfields
  unfold readGate interruptGate
  rw [hlow, hselector, hhigh, hflags, htype, hsystem, hdpl, hpresent, halves]
  rfl

end Entry

/-! ### The table -/

section Table

variable {m m' : Mem} {idt : UInt32} {v w : ℕ}

theorem readGate_congr {a : UInt32} (h : ∀ i : UInt32, i.toNat < 8 → m (a + i) = m' (a + i)) :
    readGate m a = readGate m' a := by
  have hword : ∀ i : UInt32, i.toNat < 7 → read16 m (a + i) = read16 m' (a + i) := by
    intro i hi
    have hnext : m (a + (i + 1)) = m' (a + (i + 1)) :=
      h (i + 1) (by rw [toNat_add_of_lt (by rw [show (1 : UInt32).toNat = 1 from rfl]; omega)]
                    exact Nat.succ_lt_succ hi)
    unfold read16
    rw [h i (by omega), UInt32.add_assoc, hnext]
  unfold readGate
  rw [hword 0 (by decide), hword 2 (by decide), hword 6 (by decide), h 5 (by decide)]

/-- An entry is not touched by what is done to another. -/
theorem idtGate_idtCall_of_ne (hv : v < 256) (hw : w < 256) (h : w ≠ v) (c : UInt32 × UInt8) :
    idtGate (idtCall idt m (w, c)) idt v = idtGate m idt v := by
  refine readGate_congr fun i hi => idtFormatNormalEntry_of_far ?_ _
  rw [show idt + 8 * UInt32.ofNat v + i - (idt + 8 * UInt32.ofNat w) =
    8 * UInt32.ofNat v + i - 8 * UInt32.ofNat w by grind]
  have hv' : (UInt32.ofNat v).toNat = v := toNat_ofNat_of_lt (by omega)
  have hw' : (UInt32.ofNat w).toNat = w := toNat_ofNat_of_lt (by omega)
  simp only [UInt32.toNat_sub, UInt32.toNat_add, UInt32.toNat_mul, hv', hw',
    show (8 : UInt32).toNat = 8 from rfl]
  omega

theorem idtGate_idtCall (c : UInt32 × UInt8) :
    idtGate (idtCall idt m (v, c)) idt v = interruptGate c.1 (c.2 &&& 3) :=
  readGate_idtFormatNormalEntry _ _ _ _

/-- A vector that none of the calls is for keeps its entry. -/
theorem idtGate_foldl_of_forall_ne (hv : v < 256) :
    ∀ (calls : List (ℕ × UInt32 × UInt8)) (m : Mem), (∀ c ∈ calls, c.1 < 256 ∧ c.1 ≠ v) →
      idtGate (calls.foldl (idtCall idt) m) idt v = idtGate m idt v := by
  intro calls
  induction calls with
  | nil => exact fun _ _ => rfl
  | cons c calls ih =>
    intro m h
    obtain ⟨hc, hrest⟩ := List.forall_mem_cons.1 h
    rw [List.foldl_cons, ih _ hrest]
    exact idtGate_idtCall_of_ne hv hc.1 hc.2 c.2

/-- One that all its calls make alike gets what they make. -/
theorem idtGate_foldl_of_mem (hv : v < 256) {e : UInt32 × UInt8} :
    ∀ (calls : List (ℕ × UInt32 × UInt8)) (m : Mem), (v, e) ∈ calls →
      (∀ c ∈ calls, c.1 < 256 ∧ (c.1 = v → c.2 = e)) →
      idtGate (calls.foldl (idtCall idt) m) idt v = interruptGate e.1 (e.2 &&& 3) := by
  intro calls
  induction calls with
  | nil => exact fun _ hmem => by cases hmem
  | cons c calls ih =>
    intro m hmem h
    obtain ⟨hc, hrest⟩ := List.forall_mem_cons.1 h
    rw [List.foldl_cons]
    by_cases hlater : ∃ d ∈ calls, d.1 = v
    · obtain ⟨⟨_, d⟩, hd, rfl⟩ := hlater
      obtain rfl : d = e := (hrest _ hd).2 rfl
      exact ih _ hd hrest
    · have hnone : ∀ d ∈ calls, d.1 < 256 ∧ d.1 ≠ v :=
        fun d hd => ⟨(hrest d hd).1, fun he => hlater ⟨d, hd, he⟩⟩
      obtain rfl : (v, e) = c := by
        rcases List.mem_cons.1 hmem with hcv | hin
        · exact hcv
        · exact absurd rfl (hnone _ hin).2
      rw [idtGate_foldl_of_forall_ne hv _ _ hnone]
      exact idtGate_idtCall e

/-- The vectors of the calls. -/
theorem mem_idtCalls {isr irq : ℕ → UInt32} {c : ℕ × UInt32 × UInt8} : c ∈ idtCalls isr irq ↔
    (∃ n < 32, c = (n, isr n, 0)) ∨ ∃ n < 16, c = (32 + n, irq n, if n = 13 then 0x8E else 0) := by
  unfold idtCalls
  simp only [List.mem_append, List.mem_map, List.mem_range, List.mem_singleton]
  constructor
  · rintro ((⟨n, hn, rfl⟩ | rfl) | ⟨n, hn, rfl⟩)
    · exact Or.inl ⟨n, hn, rfl⟩
    · exact Or.inr ⟨0, by decide, rfl⟩
    · exact Or.inr ⟨n, hn, rfl⟩
  · rintro (⟨n, hn, rfl⟩ | ⟨n, hn, rfl⟩)
    · exact Or.inl (Or.inl ⟨n, hn, rfl⟩)
    · exact Or.inr ⟨n, hn, rfl⟩

theorem fill_gate {i : UInt32} (hv : v < 256) (hi : i.toNat < 8) (m : Mem) :
    fill m idt 0 2048 (idt + 8 * UInt32.ofNat v + i) = 0 := by
  refine if_pos ?_
  rw [show idt + 8 * UInt32.ofNat v + i - idt = 8 * UInt32.ofNat v + i by grind]
  have hv' : (UInt32.ofNat v).toNat = v := toNat_ofNat_of_lt (by omega)
  simp only [UInt32.toNat_add, UInt32.toNat_mul, hv', show (8 : UInt32).toNat = 8 from rfl]
  omega

theorem idtCalls_lt {isr irq : ℕ → UInt32} {c : ℕ × UInt32 × UInt8} (hc : c ∈ idtCalls isr irq) :
    c.1 < 48 := by
  rcases mem_idtCalls.1 hc with ⟨n, hn, rfl⟩ | ⟨n, hn, rfl⟩
  · show n < 48
    omega
  · show 32 + n < 48
    omega

/-- An exception's vector. -/
theorem idtGate_isr (isr irq : ℕ → UInt32) (m : Mem) {n : ℕ} (hn : n < 32) :
    idtGate (idtInitialize idt isr irq m) idt n = interruptGate (isr n) 0 := by
  have hgate : idtGate (idtInitialize idt isr irq m) idt n = interruptGate (isr n) (0 &&& 3) := by
    refine idtGate_foldl_of_mem (by omega) _ _ (mem_idtCalls.2 (Or.inl ⟨n, hn, rfl⟩))
      fun c hc => ⟨(idtCalls_lt hc).trans (by decide), fun he => ?_⟩
    rcases mem_idtCalls.1 hc with ⟨k, hk, rfl⟩ | ⟨k, hk, rfl⟩
    · obtain rfl : k = n := he
      rfl
    · have : 32 + k = n := he
      omega
  exact hgate

/-- A line's vector. -/
theorem idtGate_irq (isr irq : ℕ → UInt32) (m : Mem) {n : ℕ} (hn : n < 16) :
    idtGate (idtInitialize idt isr irq m) idt (32 + n) =
      interruptGate (irq n) (if n = 13 then 2 else 0) := by
  have hgate : idtGate (idtInitialize idt isr irq m) idt (32 + n) =
      interruptGate (irq n) ((if n = 13 then 0x8E else 0) &&& 3) := by
    refine idtGate_foldl_of_mem (by omega) _ _ (mem_idtCalls.2 (Or.inr ⟨n, hn, rfl⟩))
      fun c hc => ⟨(idtCalls_lt hc).trans (by decide), fun he => ?_⟩
    rcases mem_idtCalls.1 hc with ⟨k, hk, rfl⟩ | ⟨k, hk, rfl⟩
    · have : k = 32 + n := he
      omega
    · obtain rfl : k = n := Nat.add_left_cancel he
      rfl
  rw [hgate]
  split
  · rfl
  · rfl

/-- **The table.**  Whatever was in memory, after `idt_initialize` each of the first 48 vectors has a
present interrupt gate of the kernel's code segment to its own entry point, which only the kernel's
ring may call, except for vector 45, whose descriptor privilege level comes out as 2; and no other
vector has a present gate. -/
theorem idtGate_idtInitialize (idt : UInt32) (isr irq : ℕ → UInt32) (m : Mem) :
    (∀ n < 32, idtGate (idtInitialize idt isr irq m) idt n = interruptGate (isr n) 0) ∧
    (∀ n < 16, idtGate (idtInitialize idt isr irq m) idt (32 + n) =
      interruptGate (irq n) (if n = 13 then 2 else 0)) ∧
    ∀ v, 48 ≤ v → v < 256 → (idtGate (idtInitialize idt isr irq m) idt v).present = false := by
  refine ⟨fun n hn => idtGate_isr isr irq m hn, fun n hn => idtGate_irq isr irq m hn,
    fun v hlo hhi => ?_⟩
  have hgate : idtGate (idtInitialize idt isr irq m) idt v = idtGate (fill m idt 0 2048) idt v :=
    idtGate_foldl_of_forall_ne hhi _ _ fun c hc => ⟨(idtCalls_lt hc).trans (by decide), fun he => by
      have := idtCalls_lt hc
      omega⟩
  rw [hgate]
  unfold idtGate readGate
  rw [fill_gate hhi (i := 5) (by decide)]
  rfl

end Table

end CometOS
