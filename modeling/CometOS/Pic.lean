import CometOS.Lib.Pic8259

/-!
# The interrupt controllers (`arch/i386/pic.c`)

The functions of `pic.c` write and read four ports; what that does is up to the two chips behind them.
-/

namespace CometOS

open Pic8259

def picMaster : UInt16 := 0x20
def picSlave : UInt16 := 0xA0
def picCommand : UInt16 := 0x00
def picData : UInt16 := 0x01
def picCmdEndintr : UInt8 := 0x20
def picIcw1Icw4 : UInt8 := 0x01
def picCmdInit : UInt8 := 0x10
def picMode8086 : UInt8 := 0x01
def picReadIrrCommand : UInt8 := 0x0A
def picReadIsrCommand : UInt8 := 0x0B

/-- `outport8`, to one of the controllers' ports. -/
def picOut (port : UInt16) (v : UInt8) (p : Pair) : Pair :=
  if port = 0x20 then { p with master := p.master.writeCommand v }
  else if port = 0x21 then { p with master := p.master.writeData v }
  else if port = 0xA0 then { p with slave := p.slave.writeCommand v }
  else if port = 0xA1 then { p with slave := p.slave.writeData v }
  else p

/-- `inport8`, from a command port. -/
def picIn (port : UInt16) (p : Pair) : UInt8 :=
  if port = 0x20 then p.linked.readCommand else p.slave.readCommand

/-- `pic_read_irr` and `pic_read_isr`, by the command they give. -/
def picRead (command : UInt8) (p : Pair) : UInt16 × Pair :=
  let p := picOut (picMaster + picCommand) command p
  let p := picOut (picSlave + picCommand) command p
  ((picIn (picMaster + picCommand) p).toUInt16 <<< 0 |||
    (picIn (picSlave + picCommand) p).toUInt16 <<< 8, p)

def picReadIrr (p : Pair) : UInt16 × Pair := picRead picReadIrrCommand p

def picReadIsr (p : Pair) : UInt16 × Pair := picRead picReadIsrCommand p

def picEoiMaster (p : Pair) : Pair := picOut picMaster picCmdEndintr p

def picEoiSlave (p : Pair) : Pair := picOut picSlave picCmdEndintr p

/-- `pic_initialize`. -/
def picInitialize (p : Pair) : Pair :=
  let mapIrqsAt : UInt8 := 32
  let masterMask : UInt8 := 0
  let slaveMask : UInt8 := 0
  let p := picOut (picMaster + picCommand) (picCmdInit ||| picIcw1Icw4) p
  let p := picOut (picSlave + picCommand) (picCmdInit ||| picIcw1Icw4) p
  let p := picOut (picMaster + picData) (mapIrqsAt + 0) p
  let p := picOut (picSlave + picData) (mapIrqsAt + 8) p
  let p := picOut (picMaster + picData) 0x04 p
  let p := picOut (picSlave + picData) 0x02 p
  let p := picOut (picMaster + picData) picMode8086 p
  let p := picOut (picSlave + picData) picMode8086 p
  let p := picOut (picMaster + picData) masterMask p
  picOut (picSlave + picData) slaveMask p

/-! ### What the ports do -/

/-- A chip as `pic_initialize` leaves it, whatever is requested and in service since then. -/
structure ChipReady (base icw3 : UInt8) (c : Chip) : Prop where
  base : c.base = base
  icw3 : c.icw3 = icw3
  imr : c.imr = 0
  autoEoi : c.autoEoi = false
  expects : c.expects = .ocw1

/-- Both chips. -/
structure PicsReady (p : Pair) : Prop where
  master : ChipReady 32 4 p.master
  slave : ChipReady 40 2 p.slave

section Ports

variable {p : Pair} {base icw3 : UInt8} {c : Chip}

/-- The two chips, told to show what is in service. -/
def showIsr (p : Pair) : Pair :=
  ⟨{ p.master with readIsr := true }, { p.slave with readIsr := true }⟩

theorem picReadIsr_eq (p : Pair) : picReadIsr p =
    ((UInt8.ofBitVec p.master.isr).toUInt16 <<< 0 ||| (UInt8.ofBitVec p.slave.isr).toUInt16 <<< 8,
      showIsr p) := by
  have hmaster : (showIsr p).linked.readCommand = UInt8.ofBitVec p.master.isr := by
    unfold Pair.linked Chip.readCommand
    split
    · rfl
    · rfl
  have hread : picReadIsr p = ((showIsr p).linked.readCommand.toUInt16 <<< 0 |||
      (UInt8.ofBitVec p.slave.isr).toUInt16 <<< 8, showIsr p) := rfl
  rw [hread, hmaster]

/-- The word that `pic_read_isr` puts together has the second chip's lines above the first one's. -/
theorem isrWord_eq (m s : Lines) :
    ((UInt8.ofBitVec m).toUInt16 <<< 0 ||| (UInt8.ofBitVec s).toUInt16 <<< 8).toBitVec = s ++ m := by
  have hm := m.isLt
  have hs := s.isLt
  have hs' : s.toNat <<< 8 < 65536 := by
    rw [Nat.shiftLeft_eq]
    omega
  apply BitVec.eq_of_toNat_eq
  rw [BitVec.toNat_append, Nat.or_comm]
  simp only [UInt16.toBitVec_or, UInt16.toBitVec_shiftLeft, UInt8.toBitVec_toUInt16]
  simp [Nat.mod_eq_of_lt, show m.toNat < 65536 by omega, show s.toNat < 65536 by omega, hs']

theorem and_bit_eq_zero (w : UInt16) {i : ℕ} (hi : i < 16) :
    w &&& (1 <<< UInt16.ofNat i : UInt16) = 0 ↔ w.toBitVec.getLsbD i = false := by
  have hbit : (1 <<< UInt16.ofNat i : UInt16).toBitVec = BitVec.twoPow 16 i := by
    interval_cases i <;> rfl
  rw [← UInt16.toBitVec_inj, UInt16.toBitVec_and, hbit, BitVec.and_twoPow]
  cases h : w.toBitVec.getLsbD i with
  | false => simp
  | true =>
    simp only [if_true, Bool.true_eq_false, iff_false]
    intro hzero
    have hset := congrArg (fun x => x.getLsbD i) hzero
    simp [hi] at hset

/-- The two tests `irq_handler` makes. -/
theorem picReadIsr_bit7 (p : Pair) :
    (picReadIsr p).1 &&& ((1 : UInt16) <<< 7) = 0 ↔ Has p.master.isr 7 = false := by
  rw [picReadIsr_eq]
  refine (and_bit_eq_zero (i := 7) _ (by decide)).trans ?_
  rw [isrWord_eq, BitVec.getLsbD_append]
  rfl

theorem picReadIsr_bit15 (p : Pair) :
    (picReadIsr p).1 &&& ((1 : UInt16) <<< 15) = 0 ↔ Has p.slave.isr 7 = false := by
  rw [picReadIsr_eq]
  refine (and_bit_eq_zero (i := 15) _ (by decide)).trans ?_
  rw [isrWord_eq, BitVec.getLsbD_append]
  rfl

/-! ### Chips that are ready -/

/-- Whatever state the chips are in, in the middle of an initialization say, they are ready after
`pic_initialize`, with nothing requested and nothing in service. -/
theorem picInitialize_ready (p : Pair) :
    PicsReady (picInitialize p) ∧ (picInitialize p).master.irr = 0 ∧
      (picInitialize p).master.isr = 0 ∧ (picInitialize p).slave.irr = 0 ∧
      (picInitialize p).slave.isr = 0 :=
  ⟨⟨⟨rfl, rfl, rfl, rfl, rfl⟩, ⟨rfl, rfl, rfl, rfl, rfl⟩⟩, rfl, rfl, rfl, rfl⟩

theorem ChipReady.of_eq {c' : Chip} (h : ChipReady base icw3 c) (hbase : c'.base = c.base)
    (hicw3 : c'.icw3 = c.icw3) (himr : c'.imr = c.imr) (hauto : c'.autoEoi = c.autoEoi)
    (hexpects : c'.expects = c.expects) : ChipReady base icw3 c' :=
  ⟨hbase.trans h.base, hicw3.trans h.icw3, himr.trans h.imr, hauto.trans h.autoEoi,
    hexpects.trans h.expects⟩

theorem ChipReady.request (h : ChipReady base icw3 c) (i : Fin 8) :
    ChipReady base icw3 (c.request i) := h.of_eq rfl rfl rfl rfl rfl

theorem ChipReady.withdraw (h : ChipReady base icw3 c) (i : Fin 8) :
    ChipReady base icw3 (c.withdraw i) := h.of_eq rfl rfl rfl rfl rfl

theorem ChipReady.take (h : ChipReady base icw3 c) (i : Fin 8) :
    ChipReady base icw3 (c.take i) := h.of_eq rfl rfl rfl rfl rfl

theorem ChipReady.endOfInterrupt (h : ChipReady base icw3 c) :
    ChipReady base icw3 (c.writeCommand 0x20) := h.of_eq rfl rfl rfl rfl rfl

theorem ChipReady.take_isr (h : ChipReady base icw3 c) (i : Fin 8) :
    (c.take i).isr = setLine i c.isr := by
  rw [Chip.take, h.autoEoi]
  rfl

theorem PicsReady.showIsr (h : PicsReady p) : PicsReady (showIsr p) :=
  ⟨h.master.of_eq rfl rfl rfl rfl rfl, h.slave.of_eq rfl rfl rfl rfl rfl⟩

theorem PicsReady.eoiMaster (h : PicsReady p) : PicsReady (picEoiMaster p) :=
  ⟨h.master.endOfInterrupt, h.slave⟩

theorem PicsReady.eoiSlave (h : PicsReady p) : PicsReady (picEoiSlave p) :=
  ⟨h.master, h.slave.endOfInterrupt⟩

theorem PicsReady.cascaded (h : PicsReady p) : p.Cascaded := by
  unfold Pair.Cascaded
  rw [h.master.icw3, h.slave.icw3]
  decide

end Ports

end CometOS
