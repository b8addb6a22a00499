import CometOS.Lib.Word

/-!
# The DMA controller (`arch/i386/dma.c`) and how the floppy driver loads it

The functions of `dma.c` do nothing but write ports, so each is the list of its writes, in order.  What
the writes do is up to the 8237: a byte for an address or a count is the low or the high one by a
flip-flop that all channels share, and bits 16 to 23 of an address come from a page register that is
not part of the chip.
-/

namespace CometOS

open Word32

/-- A byte, and the port it is written to. -/
abbrev PortWrite := UInt16 × UInt8

/-! ### `dma.c` -/

def dmaMaskChannel (channel : UInt8) : List PortWrite :=
  if channel ≤ 4 then [(0x0A, 1 <<< (channel - 1))] else [(0xD4, 1 <<< (channel - 5))]

def dmaUnmaskAll (_dma : Int32) : List PortWrite := [(0xDC, 0xFF)]

/-- `DMA0_TEMP_REG` is the port of the master clear too. -/
def dmaReset (_dma : Int32) : List PortWrite := [(0x0D, 0xFF)]

def dmaResetFlipflop (dma : Int32) : List PortWrite :=
  if dma < 2 then [] else [(if dma = 0 then 0x0C else 0xD8, 0xFF)]

/-- The two writes of `dma_set_address` and `dma_set_count`, given the ports by channel. -/
def dmaLoad (ports : List UInt16) (channel low high : UInt8) : List PortWrite :=
  if channel > 8 then []
  else [(ports.getD channel.toNat 0, low), (ports.getD channel.toNat 0, high)]

def dmaSetAddress (channel low high : UInt8) : List PortWrite :=
  dmaLoad [0x00, 0x02, 0x04, 0x06, 0xC0, 0xC4, 0xC8, 0xCC] channel low high

def dmaSetCount (channel low high : UInt8) : List PortWrite :=
  dmaLoad [0x01, 0x03, 0x05, 0x07, 0xC2, 0xC6, 0xCA, 0xCE] channel low high

def dmaSetMode (channel mode : UInt8) : List PortWrite :=
  let dma : Int32 := if channel < 4 then 0 else 1
  let chan := if dma = 0 then channel else channel - 4
  dmaMaskChannel channel ++ [(if channel < 4 then 0x0B else 0xD6, chan ||| mode)] ++ dmaUnmaskAll dma

/-- `DMA_MODE_READ_TRANSFER | DMA_MODE_TRANSFER_SINGLE`. -/
def dmaSetRead (channel : UInt8) : List PortWrite := dmaSetMode channel (0x04 ||| 0x40)

def dmaSetExternalPageRegister (reg val : UInt8) : List PortWrite :=
  if reg > 14 ∨ reg = 4 then []
  else [([0, 0x83, 0x81, 0x82, 0, 0x89, 0x87, 0x88].getD reg.toNat 0, val)]

/-! ### `floppy_dma_initialize` -/

def fdcDmaChannel : UInt8 := 2

/-- What is returned, and the writes. -/
def floppyDmaInitialize (buffer length : UInt32) : Int32 × List PortWrite :=
  let a := buffer
  let c := length - 1
  if a >>> 24 ≠ 0 ∨ c >>> 16 ≠ 0 ∨ ((a &&& 0xFFFF) + c) >>> 16 ≠ 0 then (0, [])
  else
    (1, dmaReset 1 ++ dmaMaskChannel fdcDmaChannel ++ dmaResetFlipflop 1 ++
      dmaSetAddress fdcDmaChannel a.toUInt8 (a >>> 8).toUInt8 ++ dmaResetFlipflop 1 ++
      dmaSetCount fdcDmaChannel c.toUInt8 (c >>> 8).toUInt8 ++ dmaSetRead fdcDmaChannel ++
      dmaUnmaskAll 1)

/-! ### The 8237 -/

/-- The first controller's channels with their page registers; `high` if the next byte is a high one. -/
structure Dma where
  page : Fin 4 → UInt8
  address : Fin 4 → UInt16
  count : Fin 4 → UInt16
  high : Bool

/-- A register after one of its bytes has been loaded. -/
def loadByte (high : Bool) (data : UInt8) (w : UInt16) : UInt16 :=
  UInt16.ofNat (if high then data.toNat * 2 ^ 8 + w.toNat % 2 ^ 8
    else w.toNat / 2 ^ 8 * 2 ^ 8 + data.toNat)

/-- The channel whose page register is at a port. -/
def pageChannel (port : UInt16) : Option (Fin 4) :=
  if port = 0x87 then some 0
  else if port = 0x83 then some 1
  else if port = 0x81 then some 2
  else if port = 0x82 then some 3
  else none

/-- What a write does to it.  With `masterClear` a write to the master clear port resets the flip-flop,
as one to the port for clearing the flip-flop does. -/
def Dma.write (masterClear : Bool) (d : Dma) (w : PortWrite) : Dma :=
  if h : w.1.toNat < 8 then
    let channel : Fin 4 := ⟨w.1.toNat / 2, by omega⟩
    if w.1.toNat % 2 = 0 then
      { d with
        address := Function.update d.address channel (loadByte d.high w.2 (d.address channel))
        high := !d.high }
    else
      { d with
        count := Function.update d.count channel (loadByte d.high w.2 (d.count channel))
        high := !d.high }
  else if w.1 = 0x0C ∨ masterClear = true ∧ w.1 = 0x0D then { d with high := false }
  else
    match pageChannel w.1 with
    | some channel => { d with page := Function.update d.page channel w.2 }
    | none => d

def Dma.writes (masterClear : Bool) (d : Dma) (ws : List PortWrite) : Dma :=
  ws.foldl (Dma.write masterClear) d

/-! ### What the call should do -/

/-- If 1 is returned, channel 2 has been loaded with the buffer and its length, and the transfer stays
below 16 MiB and inside 64 KiB; otherwise 0 is, and the controller is as it was. -/
def FloppyDmaOk (masterClear : Bool) (d : Dma) (buffer length : UInt32) : Prop :=
  let r := floppyDmaInitialize buffer length
  let d' := d.writes masterClear r.2
  if r.1 = 1 then
    (d'.page 2).toNat * 2 ^ 16 + (d'.address 2).toNat = buffer.toNat ∧
      (d'.count 2).toNat + 1 = length.toNat ∧ buffer.toNat + length.toNat ≤ 2 ^ 24 ∧
      buffer.toNat / 2 ^ 16 = (buffer.toNat + (length.toNat - 1)) / 2 ^ 16
  else r.1 = 0 ∧ d' = d

/-- The buffer is one that can be transferred. -/
def DmaFits (buffer length : UInt32) : Prop :=
  buffer.toNat < 2 ^ 24 ∧ 0 < length.toNat ∧ buffer.toNat % 2 ^ 16 + length.toNat ≤ 2 ^ 16

instance (buffer length : UInt32) : Decidable (DmaFits buffer length) :=
  inferInstanceAs (Decidable (_ ∧ _))

/-- The two low bytes are the same. -/
def SameLowBytes (w : UInt32) : Prop := w.toNat % 2 ^ 8 = w.toNat / 2 ^ 8 % 2 ^ 8

/-- The page register holds the buffer's page already, and the flip-flop is at the low byte, if the
order of the bytes matters. -/
def FloppyDmaMet (masterClear : Bool) (d : Dma) (buffer length : UInt32) : Prop :=
  DmaFits buffer length → (d.page 2).toNat = buffer.toNat / 2 ^ 16 ∧
    (masterClear = true ∨ d.high = false ∨ SameLowBytes buffer ∧ SameLowBytes (length - 1))

section Dma

variable {masterClear : Bool} {d : Dma} {buffer length : UInt32}

/-- The check lets through what fits. -/
theorem floppyDmaInitialize_check : (buffer >>> 24 ≠ 0 ∨ (length - 1) >>> 16 ≠ 0 ∨
    ((buffer &&& 0xFFFF) + (length - 1)) >>> 16 ≠ 0) ↔ ¬ DmaFits buffer length := by
  have hb := buffer.toNat_lt
  have hl := length.toNat_lt
  have hand : (buffer &&& 0xFFFF).toNat = buffer.toNat % 2 ^ 16 := toNat_and_low buffer 16 (by omega)
  have hzero : ∀ (x k : UInt32), x >>> k = 0 ↔ x.toNat / 2 ^ (k.toNat % 32) = 0 := by
    intro x k
    rw [← UInt32.toNat_inj, UInt32.toNat_shiftRight, Nat.shiftRight_eq_div_pow]
    rfl
  have h24 : (24 : UInt32).toNat % 32 = 24 := rfl
  have h16 : (16 : UInt32).toNat % 32 = 16 := rfl
  have hone : (1 : UInt32).toNat = 1 := rfl
  rw [iff_not_comm, DmaFits]
  simp only [ne_eq, not_or, not_not, hzero, h24, h16, UInt32.toNat_add, hand]
  by_cases hpos : 0 < length.toNat
  · rw [toNat_sub_of_le (by omega), hone]
    omega
  · rw [toNat_sub_of_lt (by omega), hone]
    omega

theorem floppyDmaInitialize_eq : floppyDmaInitialize buffer length =
    if ¬ DmaFits buffer length then ((0, []) : Int32 × List PortWrite)
    else (1, [(0x0D, 0xFF), (0x0A, 2), (0x04, buffer.toUInt8), (0x04, (buffer >>> 8).toUInt8),
      (0x05, (length - 1).toUInt8), (0x05, ((length - 1) >>> 8).toUInt8), (0x0A, 2), (0x0B, 0x46),
      (0xDC, 0xFF), (0xDC, 0xFF)]) := by
  simp only [floppyDmaInitialize, floppyDmaInitialize_check]
  rfl

/-- A register loaded with both bytes, the first one its low byte if the flip-flop was low. -/
theorem loadByte_twice (high : Bool) (lo hi : UInt8) (w : UInt16) :
    (loadByte (!high) hi (loadByte high lo w)).toNat =
      if high then lo.toNat * 2 ^ 8 + hi.toNat else hi.toNat * 2 ^ 8 + lo.toNat := by
  have hlo := lo.toNat_lt
  have hhi := hi.toNat_lt
  have hw := w.toNat_lt
  cases high with
  | false =>
    simp only [loadByte, Bool.not_false, if_true, Bool.false_eq_true, if_false, UInt16.toNat_ofNat']
    omega
  | true =>
    simp only [loadByte, Bool.not_true, if_true, Bool.false_eq_true, if_false, UInt16.toNat_ofNat']
    omega

/-- The two low bytes of a word, in this order or the other, make its low half. -/
theorem lowBytes (w : UInt32) :
    (w >>> 8).toUInt8.toNat * 2 ^ 8 + w.toUInt8.toNat = w.toNat % 2 ^ 16 ∧
      (w.toUInt8.toNat * 2 ^ 8 + (w >>> 8).toUInt8.toNat = w.toNat % 2 ^ 16 ↔ SameLowBytes w) := by
  have hlo : w.toUInt8.toNat = w.toNat % 2 ^ 8 := UInt32.toNat_toUInt8 w
  have hhi : (w >>> 8).toUInt8.toNat = w.toNat / 2 ^ 8 % 2 ^ 8 := by
    rw [UInt32.toNat_toUInt8, UInt32.toNat_shiftRight, show (8 : UInt32).toNat % 32 = 8 from rfl,
      Nat.shiftRight_eq_div_pow]
  rw [hlo, hhi, SameLowBytes]
  omega

/-- **What the writes do**: the page register stays, and the address and the count are loaded by the
flip-flop as it is after the write to the master clear port. -/
theorem floppyDmaInitialize_writes (masterClear : Bool) (d : Dma) (hfits : DmaFits buffer length)
    {high : Bool} (hhigh : high = (d.high && !masterClear)) :
    let d' := d.writes masterClear (floppyDmaInitialize buffer length).2
    d'.page 2 = d.page 2 ∧
      d'.address 2 = loadByte (!high) (buffer >>> 8).toUInt8 (loadByte high buffer.toUInt8 (d.address 2)) ∧
      d'.count 2 = loadByte (!high) ((length - 1) >>> 8).toUInt8
        (loadByte high (length - 1).toUInt8 (d.count 2)) := by
  have hclear : d.write masterClear (0x0D, 0xFF) = { d with high := high } := by
    rw [hhigh]
    cases masterClear with
    | false => simp [Dma.write, pageChannel]
    | true => simp [Dma.write]
  rw [floppyDmaInitialize_eq, if_neg (not_not.2 hfits)]
  simp only [Dma.writes, List.foldl_cons, List.foldl_nil, hclear]
  simp [Dma.write, pageChannel]

/-- **`floppy_dma_initialize`, exactly.** -/
theorem floppyDma_ok_iff (masterClear : Bool) (d : Dma) (buffer length : UInt32) :
    FloppyDmaOk masterClear d buffer length ↔ FloppyDmaMet masterClear d buffer length := by
  by_cases hfits : DmaFits buffer length
  · obtain ⟨high, hhigh⟩ : ∃ high : Bool, high = (d.high && !masterClear) := ⟨_, rfl⟩
    obtain ⟨hpage, haddress, hcount⟩ := floppyDmaInitialize_writes masterClear d hfits hhigh
    obtain ⟨hbuffer, hsame⟩ := lowBytes buffer
    obtain ⟨hlength, hsame'⟩ := lowBytes (length - 1)
    have ⟨hlt, hpos, hin⟩ := hfits
    have hsub : (length - 1).toNat = length.toNat - 1 := toNat_sub_of_le hpos
    have hone : (floppyDmaInitialize buffer length).1 = 1 := by
      rw [floppyDmaInitialize_eq, if_neg (not_not.2 hfits)]
    have haddr := loadByte_twice high buffer.toUInt8 (buffer >>> 8).toUInt8 (d.address 2)
    have hcnt := loadByte_twice high (length - 1).toUInt8 ((length - 1) >>> 8).toUInt8 (d.count 2)
    rw [FloppyDmaOk, FloppyDmaMet]
    simp only [hone, if_true, hpage, haddress, hcount, haddr, hcnt, hfits, true_implies]
    cases high with
    | false =>
      have hlow : masterClear = true ∨ d.high = false := by
        cases masterClear with
        | false => exact Or.inr (by simpa using hhigh.symm)
        | true => exact Or.inl rfl
      simp only [Bool.false_eq_true, if_false, hbuffer, hlength]
      constructor
      · rintro ⟨hp, _⟩
        exact ⟨by omega, hlow.elim Or.inl fun h => Or.inr (Or.inl h)⟩
      · rintro ⟨hp, _⟩
        omega
    | true =>
      have hhigh' : d.high = true ∧ masterClear = false := by
        cases masterClear with
        | false => exact ⟨by simpa using hhigh.symm, rfl⟩
        | true => simp at hhigh
      simp only [hhigh'.1, hhigh'.2, Bool.false_eq_true, Bool.true_eq_false, if_true, false_or, ← hsame,
        ← hsame']
      have h1 := buffer.toUInt8.toNat_lt
      have h2 := (buffer >>> 8).toUInt8.toNat_lt
      omega
  · have hnot : floppyDmaInitialize buffer length = (0, []) := by
      rw [floppyDmaInitialize_eq, if_pos hfits]
    rw [FloppyDmaOk, hnot, FloppyDmaMet]
    exact iff_of_true ⟨rfl, rfl⟩ fun h => absurd h hfits

/-- **A stale page register**: a buffer at 1 MiB is transferred from where the page register, 0 after
a reset, says. -/
theorem floppyDma_page_stale :
    ¬ ∀ (masterClear : Bool) (d : Dma) (buffer length : UInt32),
      FloppyDmaOk masterClear d buffer length := by
  intro h
  have hfits : DmaFits 0x100000 512 := by decide
  have hok := h true ⟨fun _ => 0, fun _ => 0, fun _ => 0, false⟩ 0x100000 512
  obtain ⟨hpage, haddress, _⟩ :=
    floppyDmaInitialize_writes true ⟨fun _ => 0, fun _ => 0, fun _ => 0, false⟩ hfits rfl
  rw [FloppyDmaOk] at hok
  simp only [show (floppyDmaInitialize 0x100000 512).1 = 1 from by decide, if_true, hpage,
    haddress] at hok
  exact absurd hok.1 (by decide)

end Dma

end CometOS
