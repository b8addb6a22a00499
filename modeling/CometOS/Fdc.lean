import CometOS.Dma
import CometOS.Pit

/-!
# The floppy driver (`arch/i386/fdc.c`)

The driver reads and writes the controller's ports, waits for its interrupt and sleeps.  What it meets
is given by `FdcWorld`: the bytes its port reads return, one after the other and whatever the port, and
when the two interrupts come.  Its port writes are recorded, oldest first.
-/

namespace CometOS

open Loop

/-- `answers n` is the byte that the `n`-th port read returns; `irqs n` says whether the controller's
interrupt has come before the `n`-th test of `FloppyDiskIRQ`; `arrivals` is the timer's. -/
structure FdcWorld where
  answers : ℕ → UInt8
  irqs : ℕ → Bool
  arrivals : ℕ → ℕ

/-- The globals, the counts of port reads and of tests of `FloppyDiskIRQ`, and the port writes. -/
structure Fdc where
  currentDrive : UInt8
  floppyDiskIRQ : UInt8
  dmaBuffer : Int32
  timer : Timer
  reads : ℕ
  tests : ℕ
  writes : List PortWrite

/-- `outport8`, once for each write of a list. -/
def Fdc.write (ws : List PortWrite) (s : Fdc) : Fdc := { s with writes := s.writes ++ ws }

def floppyDor : UInt16 := 0x3F2
def floppyFifo : UInt16 := 0x3F5

/-- The poll of `floppy_send_command` and `floppy_read_data`: whether the data register was ready at one
of the next reads of the status register, and the number of the read that follows. -/
def floppyPoll (answers : ℕ → UInt8) : ℕ → ℕ → Bool × ℕ
  | 0, n => (false, n)
  | tries + 1, n =>
    if answers n &&& 0x80 ≠ 0 then (true, n + 1) else floppyPoll answers tries (n + 1)

/-- `floppy_send_command`. -/
def floppySendCommand (w : FdcWorld) (cmd : UInt8) (s : Fdc) : Fdc :=
  let (ready, n) := floppyPoll w.answers 500 s.reads
  let s := { s with reads := n }
  if ready then s.write [(floppyFifo, cmd)] else s

/-- `floppy_send_command`, for one byte after the other. -/
def floppySendCommands (w : FdcWorld) (cmds : List UInt8) (s : Fdc) : Fdc :=
  cmds.foldl (fun s cmd => floppySendCommand w cmd s) s

/-- `floppy_read_data` from read `n` on: the byte, and the number of the read that follows. -/
def floppyReadData (answers : ℕ → UInt8) (n : ℕ) : UInt8 × ℕ :=
  let (ready, n) := floppyPoll answers 500 n
  if ready then (answers n, n + 1) else (0, n)

def floppyIrq (s : Fdc) : Fdc := { s with floppyDiskIRQ := 1 }

/-- The interrupt, if it comes before the next test of `FloppyDiskIRQ`. -/
def Fdc.advance (w : FdcWorld) (s : Fdc) : Fdc :=
  { (if w.irqs s.tests then floppyIrq s else s) with tests := s.tests + 1 }

def floppyWaitIrq (w : FdcWorld) (fuel : ℕ) (s : Fdc) : Option Fdc :=
  (whileLoop (fun s : Fdc => s.floppyDiskIRQ = 0) (fun s => some (s.advance w)) fuel
    (s.advance w)).map fun s => { s with floppyDiskIRQ := 0 }

/-- `*st0`, `*cyl`. -/
def floppyCheckInt (w : FdcWorld) (s : Fdc) : UInt32 × UInt32 × Fdc :=
  let s := floppySendCommand w 0x08 s
  let (st0, n) := floppyReadData w.answers s.reads
  let (cyl, n) := floppyReadData w.answers n
  (st0.toUInt32, cyl.toUInt32, { s with reads := n })

def floppyMotor (drive : UInt8) : UInt32 :=
  if drive = 0 then 16 else if drive = 1 then 32 else if drive = 2 then 64
  else if drive = 3 then 128 else 0

def floppyControlMotor (w : FdcWorld) (fuel : ℕ) (b : Int32) (s : Fdc) : Option Fdc :=
  if s.currentDrive > 3 then some s
  else
    let s := s.write [(floppyDor,
      if b ≠ 0 then (s.currentDrive.toUInt32 ||| floppyMotor s.currentDrive ||| 4 ||| 8).toUInt8
      else 4)]
    (sleep w.arrivals fuel 20 s.timer).map fun t => { s with timer := t }

/-- A turn of the loop of `floppy_seek`: `cyl0`. -/
def floppySeekAttempt (w : FdcWorld) (fuel : ℕ) (cyl head : UInt32) (s : Fdc) :
    Option (UInt32 × Fdc) :=
  let s := floppySendCommands w
    [0x0F, (head <<< 2 ||| s.currentDrive.toUInt32).toUInt8, cyl.toUInt8] s
  (floppyWaitIrq w fuel s).map fun s =>
    let (_, cyl0, s) := floppyCheckInt w s
    (cyl0, s)

def floppySeekLoop (w : FdcWorld) (fuel : ℕ) (cyl head : UInt32) : ℕ → Fdc → Option (Int32 × Fdc)
  | 0, s => some (-1, s)
  | i + 1, s =>
    (floppySeekAttempt w fuel cyl head s).bind fun (cyl0, s) =>
      if cyl0 = cyl then some (0, s) else floppySeekLoop w fuel cyl head i s

def floppySeek (w : FdcWorld) (fuel : ℕ) (cyl head : UInt32) (s : Fdc) : Option (Int32 × Fdc) :=
  if s.currentDrive ≥ 4 then some (-1, s) else floppySeekLoop w fuel cyl head 10 s

/-- The nine bytes that `floppy_read_sector_imp` sends first. -/
def readCommand (drive head track sector : UInt8) : List UInt8 :=
  [0x06 ||| 0x80 ||| 0x20 ||| 0x40, head <<< 2 ||| drive, track, head, sector, 2,
    (if sector.toUInt32 + 1 ≥ 18 then 18 else sector.toUInt32 + 1).toUInt8, 27, 0xFF]

def floppyReadSectorImp (w : FdcWorld) (fuel : ℕ) (head track sector : UInt8) (s : Fdc) : Option Fdc :=
  let s := s.write (floppyDmaInitialize s.dmaBuffer.toUInt32 512).2
  let s := s.write (dmaSetRead fdcDmaChannel)
  let s := floppySendCommands w (readCommand s.currentDrive head track sector) s
  (floppyWaitIrq w fuel s).map fun s =>
    let s := { s with reads := forUp (fun _ n => (floppyReadData w.answers n).2) 0 7 s.reads }
    (floppyCheckInt w s).2.2

/-- `*head`, `*track`, `*sector`. -/
def floppyConvert (lba : Int32) : Int32 × Int32 × Int32 :=
  (lba % (18 * 2) / 18, lba / (18 * 2), lba % 18 + 1)

def floppyRead (w : FdcWorld) (fuel : ℕ) (sectorLBA : Int32) (s : Fdc) : Option (UInt32 × Fdc) :=
  if s.currentDrive ≥ 4 then some (0, s)
  else
    let (head, track, sector) := floppyConvert sectorLBA
    (floppyControlMotor w fuel 1 s).bind fun s =>
      (floppySeek w fuel track.toUInt32 head.toUInt32 s).bind fun (r, s) =>
        if r ≠ 0 then some (0, s)
        else
          (floppyReadSectorImp w fuel head.toUInt32.toUInt8 track.toUInt32.toUInt8
              sector.toUInt32.toUInt8 s).bind fun s =>
            (floppyControlMotor w fuel 0 s).map fun s => (s.dmaBuffer.toUInt32, s)

/-! ### What the controller answers -/

/-- One of the next 500 reads of the status register finds the data register ready. -/
def DataReady (answers : ℕ → UInt8) (n : ℕ) : Prop := ∃ k < 500, answers (n + k) &&& 0x80 ≠ 0

theorem floppyPoll_ready (answers : ℕ → UInt8) (tries n : ℕ) :
    (floppyPoll answers tries n).1 = true ↔ ∃ k < tries, answers (n + k) &&& 0x80 ≠ 0 := by
  induction tries generalizing n with
  | zero => simp [floppyPoll]
  | succ tries ih =>
    rw [floppyPoll]
    by_cases h : answers n &&& 0x80 ≠ 0
    · rw [if_pos h]
      exact iff_of_true rfl ⟨0, by omega, h⟩
    · rw [if_neg h, ih]
      constructor
      · rintro ⟨k, hk, hready⟩
        exact ⟨k + 1, by omega, by rwa [← Nat.add_assoc, Nat.add_right_comm]⟩
      · rintro ⟨k, hk, hready⟩
        cases k with
        | zero => exact absurd hready h
        | succ k => exact ⟨k, by omega, by rwa [Nat.add_right_comm, Nat.add_assoc]⟩

instance (answers : ℕ → UInt8) (n : ℕ) : Decidable (DataReady answers n) :=
  decidable_of_iff _ (floppyPoll_ready answers 500 n)

/-- The read that follows a poll. -/
def pollEnd (answers : ℕ → UInt8) (n : ℕ) : ℕ := (floppyPoll answers 500 n).2

/-- The bytes that are accepted of those sent from read `n` on. -/
def accepted (answers : ℕ → UInt8) : List UInt8 → ℕ → List UInt8
  | [], _ => []
  | cmd :: cmds, n =>
    if DataReady answers n then cmd :: accepted answers cmds (pollEnd answers n)
    else accepted answers cmds (pollEnd answers n)

/-- The cylinder that is reported in an attempt at a seek that starts at read `n`: after the three bytes
of the command and the one that asks for it comes a status byte, then the cylinder. -/
def reported (answers : ℕ → UInt8) (n : ℕ) : UInt8 × ℕ :=
  floppyReadData answers (floppyReadData answers ((pollEnd answers)^[4] n)).2

/-- Where attempt `i` starts. -/
def attemptStart (answers : ℕ → UInt8) (n i : ℕ) : ℕ := (fun n => (reported answers n).2)^[i] n

/-- Attempt `i` of those that start at read `n` is the first in which `cyl` is reported. -/
def AnsweredAt (answers : ℕ → UInt8) (cyl : UInt32) (n i : ℕ) : Prop :=
  (reported answers (attemptStart answers n i)).1.toUInt32 = cyl ∧
    ∀ j < i, (reported answers (attemptStart answers n j)).1.toUInt32 ≠ cyl

/-- One of the ten attempts reports the cylinder. -/
def SeekAnswered (answers : ℕ → UInt8) (cyl : UInt32) (n : ℕ) : Prop :=
  ∃ i < 10, (reported answers (attemptStart answers n i)).1.toUInt32 = cyl

/-- The last value written to the digital output register, if there is one, has no motor bit. -/
def MotorOff (ws : List PortWrite) : Prop :=
  ∀ v ∈ (ws.filter fun w => w.1 = floppyDor).getLast?, v.2 &&& 0xF0 = 0

instance (ws : List PortWrite) : Decidable (MotorOff ws) :=
  inferInstanceAs (Decidable (∀ v ∈ (ws.filter fun w => w.1 = floppyDor).getLast?, v.2 &&& 0xF0 = 0))

/-! ### What the functions do to the ports -/

section Ports

variable {w : FdcWorld} {fuel : ℕ} {s s' : Fdc}

/-- From `s` to `s'` the writes `ws` are made and the drive and its buffer stay; read `n` is next. -/
structure Fdc.Went (s : Fdc) (ws : List PortWrite) (n : ℕ) (s' : Fdc) : Prop where
  currentDrive : s'.currentDrive = s.currentDrive
  dmaBuffer : s'.dmaBuffer = s.dmaBuffer
  writes : s'.writes = s.writes ++ ws
  reads : s'.reads = n

theorem Fdc.Went.trans {s'' : Fdc} {ws ws' : List PortWrite} {n n' : ℕ} (h : s.Went ws n s')
    (h' : s'.Went ws' n' s'') : s.Went (ws ++ ws') n' s'' where
  currentDrive := h'.currentDrive.trans h.currentDrive
  dmaBuffer := h'.dmaBuffer.trans h.dmaBuffer
  writes := by rw [h'.writes, h.writes, List.append_assoc]
  reads := h'.reads

/-- The bytes of a command, as they are written. -/
def fifoWrites (cmds : List UInt8) : List PortWrite := cmds.map fun cmd => (floppyFifo, cmd)

/-- From `s` to `s'` nothing but bytes of commands is written. -/
def Fdc.Commands (s : Fdc) (n : ℕ) (s' : Fdc) : Prop := ∃ cmds, s.Went (fifoWrites cmds) n s'

theorem Fdc.Commands.trans {s'' : Fdc} {n n' : ℕ} (h : s.Commands n s') (h' : s'.Commands n' s'') :
    s.Commands n' s'' := by
  obtain ⟨cmds, hwent⟩ := h
  obtain ⟨cmds', hwent'⟩ := h'
  refine ⟨cmds ++ cmds', ?_⟩
  rw [fifoWrites, List.map_append]
  exact hwent.trans hwent'

theorem went_write (ws : List PortWrite) : s.Went ws s.reads (s.write ws) := ⟨rfl, rfl, rfl, rfl⟩

theorem floppySendCommand_eq (cmd : UInt8) :
    floppySendCommand w cmd s = { s with
      reads := pollEnd w.answers s.reads
      writes := s.writes ++ fifoWrites (accepted w.answers [cmd] s.reads) } := by
  have hready : (floppyPoll w.answers 500 s.reads).1 = true ↔ DataReady w.answers s.reads :=
    floppyPoll_ready w.answers 500 s.reads
  by_cases h : DataReady w.answers s.reads
  · simp only [floppySendCommand, hready.2 h, if_true, accepted, if_pos h]
    rfl
  · have hnot : (floppyPoll w.answers 500 s.reads).1 = false := by
      rw [← Bool.not_eq_true, hready]
      exact h
    simp only [floppySendCommand, hnot, Bool.false_eq_true, if_false, accepted, if_neg h]
    rw [fifoWrites, List.map_nil, List.append_nil]
    rfl

theorem went_sendCommand (cmd : UInt8) :
    s.Went (fifoWrites (accepted w.answers [cmd] s.reads)) (pollEnd w.answers s.reads)
      (floppySendCommand w cmd s) := by
  rw [floppySendCommand_eq]
  exact ⟨rfl, rfl, rfl, rfl⟩

theorem accepted_cons (answers : ℕ → UInt8) (cmd : UInt8) (cmds : List UInt8) (n : ℕ) :
    accepted answers (cmd :: cmds) n =
      accepted answers [cmd] n ++ accepted answers cmds (pollEnd answers n) := by
  by_cases h : DataReady answers n
  · simp [accepted, h]
  · simp [accepted, h]

/-- What is written of a list of bytes is what is accepted of it. -/
theorem went_sendCommands (cmds : List UInt8) :
    s.Went (fifoWrites (accepted w.answers cmds s.reads))
      ((pollEnd w.answers)^[cmds.length] s.reads) (floppySendCommands w cmds s) := by
  induction cmds generalizing s with
  | nil => exact ⟨rfl, rfl, (List.append_nil _).symm, rfl⟩
  | cons cmd cmds ih =>
    have hone := @went_sendCommand w s cmd
    have hrest := @ih (floppySendCommand w cmd s)
    rw [hone.reads] at hrest
    rw [accepted_cons, fifoWrites, List.map_append]
    exact hone.trans hrest

theorem went_waitIrq (h : floppyWaitIrq w fuel s = some s') : s.Went [] s.reads s' := by
  obtain ⟨t, ht, rfl⟩ := Option.map_eq_some_iff.1 h
  have hadvance : ∀ u : Fdc, u.Went [] u.reads (u.advance w) := by
    intro u
    rw [Fdc.advance]
    cases w.irqs u.tests with
    | false => exact ⟨rfl, rfl, (List.append_nil _).symm, rfl⟩
    | true => exact ⟨rfl, rfl, (List.append_nil _).symm, rfl⟩
  have hkept := whileLoop_inv (fun u => s.Went [] s.reads u) (fun u u' hu _ hnext => ?_) fuel _ t
    (hadvance s) ht
  · exact ⟨hkept.1.currentDrive, hkept.1.dmaBuffer, hkept.1.writes, hkept.1.reads⟩
  · obtain rfl := Option.some.inj hnext
    have hstep := hu.trans (hadvance u)
    rwa [hu.reads] at hstep

theorem went_checkInt :
    s.Went (fifoWrites (accepted w.answers [0x08] s.reads))
      (floppyReadData w.answers (floppyReadData w.answers (pollEnd w.answers s.reads)).2).2
      (floppyCheckInt w s).2.2 ∧
    (floppyCheckInt w s).2.1 =
      (floppyReadData w.answers
        (floppyReadData w.answers (pollEnd w.answers s.reads)).2).1.toUInt32 := by
  have hsent := @went_sendCommand w s 0x08
  refine ⟨⟨hsent.currentDrive, hsent.dmaBuffer, hsent.writes, ?_⟩, ?_⟩
  · simp only [floppyCheckInt, hsent.reads]
  · simp only [floppyCheckInt, hsent.reads]

theorem lt_four_cases {drive : UInt8} (h : drive < 4) :
    drive = 0 ∨ drive = 1 ∨ drive = 2 ∨ drive = 3 := by
  have hlt : drive.toNat < 4 := h
  simp only [← UInt8.toNat_inj, UInt8.toNat_ofNat]
  omega

/-- Switched on, the motor of the drive runs; switched off, none does. -/
theorem went_controlMotor (hdrive : s.currentDrive < 4) (b : Int32)
    (h : floppyControlMotor w fuel b s = some s') :
    ∃ v, (v &&& 0xF0 = 0 ↔ b = 0) ∧ s.Went [(floppyDor, v)] s.reads s' := by
  have hnot : ¬ s.currentDrive > 3 := by
    rcases lt_four_cases hdrive with hd | hd | hd | hd <;> rw [hd] <;> decide
  rw [floppyControlMotor, if_neg hnot] at h
  obtain ⟨t, _, rfl⟩ := Option.map_eq_some_iff.1 h
  refine ⟨_, ?_, ⟨rfl, rfl, rfl, rfl⟩⟩
  by_cases hb : b = 0
  · rw [if_neg (not_not.2 hb)]
    exact iff_of_true (by decide) hb
  · rw [if_pos hb]
    refine iff_of_false ?_ hb
    rcases lt_four_cases hdrive with hd | hd | hd | hd <;> rw [hd] <;> decide

theorem went_seekAttempt {cyl head cyl0 : UInt32}
    (h : floppySeekAttempt w fuel cyl head s = some (cyl0, s')) :
    s.Commands (reported w.answers s.reads).2 s' ∧
      cyl0 = (reported w.answers s.reads).1.toUInt32 := by
  obtain ⟨t, ht, heq⟩ := Option.map_eq_some_iff.1 h
  obtain ⟨hcyl, rfl⟩ := Prod.mk.inj heq
  have hsent := @went_sendCommands w s
    [0x0F, (head <<< 2 ||| s.currentDrive.toUInt32).toUInt8, cyl.toUInt8]
  have hwait := hsent.trans (went_waitIrq ht)
  obtain ⟨hcheck, hreport⟩ := @went_checkInt w t
  have hreads : pollEnd w.answers t.reads = (pollEnd w.answers)^[4] s.reads := by
    rw [hwait.reads, hsent.reads, Function.iterate_succ_apply' _ 3]
    rfl
  rw [hreads] at hcheck hreport
  rw [List.append_nil] at hwait
  exact ⟨Fdc.Commands.trans ⟨_, hwait⟩ ⟨_, hcheck⟩, hcyl.symm.trans hreport⟩

/-- **The seek.**  It returns 0 after the first attempt that reports the cylinder, and -1 if none of
them does. -/
theorem went_seekLoop {cyl head : UInt32} {r : Int32} (tries : ℕ)
    (h : floppySeekLoop w fuel cyl head tries s = some (r, s')) :
    (r = 0 ∧ ∃ i < tries, AnsweredAt w.answers cyl s.reads i ∧
      s.Commands (attemptStart w.answers s.reads (i + 1)) s') ∨
    (r = -1 ∧ s.Commands (attemptStart w.answers s.reads tries) s' ∧
      ∀ i < tries, (reported w.answers (attemptStart w.answers s.reads i)).1.toUInt32 ≠ cyl) := by
  induction tries generalizing s with
  | zero =>
    obtain ⟨rfl, rfl⟩ := Prod.mk.inj (Option.some.inj h)
    exact Or.inr ⟨rfl, ⟨[], rfl, rfl, (List.append_nil _).symm, rfl⟩, fun i hi => absurd hi (Nat.not_lt_zero i)⟩
  | succ tries ih =>
    obtain ⟨⟨cyl0, t⟩, hattempt, hrest⟩ := Option.bind_eq_some_iff.1 h
    obtain ⟨hsent, hcyl⟩ := went_seekAttempt hattempt
    by_cases hfound : cyl0 = cyl
    · simp only [if_pos hfound] at hrest
      obtain ⟨rfl, rfl⟩ := Prod.mk.inj (Option.some.inj hrest)
      exact Or.inl ⟨rfl, 0, by omega,
        ⟨hcyl.symm.trans hfound, fun j hj => absurd hj (Nat.not_lt_zero j)⟩, hsent⟩
    · simp only [if_neg hfound] at hrest
      have hshift : ∀ i, attemptStart w.answers t.reads i = attemptStart w.answers s.reads (i + 1) := by
        intro i
        obtain ⟨cmds, hwent⟩ := hsent
        rw [hwent.reads]
        rfl
      have hbefore : ∀ i, (∀ j < i, (reported w.answers (attemptStart w.answers t.reads j)).1.toUInt32 ≠
          cyl) → ∀ j < i + 1, (reported w.answers (attemptStart w.answers s.reads j)).1.toUInt32 ≠ cyl := by
        intro i hi j hj
        cases j with
        | zero => exact fun heq => hfound (hcyl.trans heq)
        | succ j =>
          rw [← hshift]
          exact hi j (by omega)
      rcases ih hrest with ⟨hr, i, hi, ⟨hat, hearlier⟩, hgo⟩ | ⟨hr, hgo, hnone⟩
      · rw [hshift] at hat hgo
        exact Or.inl ⟨hr, i + 1, by omega, ⟨hat, hbefore i hearlier⟩, hsent.trans hgo⟩
      · rw [hshift] at hgo
        exact Or.inr ⟨hr, hsent.trans hgo, hbefore tries hnone⟩

/-- The writes of a read: the DMA controller's, what is accepted of the command, and what is accepted
of the byte that asks for the result. -/
theorem went_readSectorImp {head track sector : UInt8}
    (h : floppyReadSectorImp w fuel head track sector s = some s') :
    ∃ n n', s.Went ((floppyDmaInitialize s.dmaBuffer.toUInt32 512).2 ++ dmaSetRead fdcDmaChannel ++
      fifoWrites (accepted w.answers (readCommand s.currentDrive head track sector) s.reads ++
        accepted w.answers [0x08] n)) n' s' := by
  obtain ⟨t, ht, rfl⟩ := Option.map_eq_some_iff.1 h
  have hdma := (@went_write s (floppyDmaInitialize s.dmaBuffer.toUInt32 512).2).trans
    (went_write (dmaSetRead fdcDmaChannel))
  have hsent := (hdma.trans (went_sendCommands (readCommand s.currentDrive head track sector))).trans
    (went_waitIrq ht)
  obtain ⟨u, hu⟩ : ∃ u : Fdc,
      u = { t with reads := forUp (fun _ n => (floppyReadData w.answers n).2) 0 7 t.reads } := ⟨_, rfl⟩
  have hresult := hsent.trans (show t.Went [] u.reads u by
    rw [hu]
    exact ⟨rfl, rfl, (List.append_nil _).symm, rfl⟩)
  have hall := hresult.trans (@went_checkInt w u).1
  rw [← hu]
  rw [List.append_nil, List.append_nil, List.append_assoc, fifoWrites, fifoWrites, ← List.map_append]
    at hall
  exact ⟨_, _, hall⟩

/-- **The whole call**, for a drive that can be selected: the motor is switched on and the seek is made,
and after an attempt that reports the cylinder the sector is read and the motor switched off. -/
theorem went_read {lba : Int32} {r : UInt32} (hdrive : s.currentDrive < 4)
    (h : floppyRead w fuel lba s = some (r, s')) :
    ∃ on n cmds, on &&& 0xF0 ≠ 0 ∧
      ((r = 0 ∧ ¬ SeekAnswered w.answers (floppyConvert lba).2.1.toUInt32 s.reads ∧
        s.Went ([(floppyDor, on)] ++ fifoWrites cmds) n s') ∨
      (r = s.dmaBuffer.toUInt32 ∧ ∃ i < 10,
        AnsweredAt w.answers (floppyConvert lba).2.1.toUInt32 s.reads i ∧ ∃ m off, off &&& 0xF0 = 0 ∧
        s.Went ([(floppyDor, on)] ++ fifoWrites cmds ++
          ((floppyDmaInitialize s.dmaBuffer.toUInt32 512).2 ++ dmaSetRead fdcDmaChannel ++
            fifoWrites (accepted w.answers (readCommand s.currentDrive
                (floppyConvert lba).1.toUInt32.toUInt8 (floppyConvert lba).2.1.toUInt32.toUInt8
                (floppyConvert lba).2.2.toUInt32.toUInt8) (attemptStart w.answers s.reads (i + 1)) ++
              accepted w.answers [0x08] m)) ++ [(floppyDor, off)]) n s')) := by
  have hnot : ¬ s.currentDrive ≥ 4 := UInt8.not_le.2 hdrive
  rw [floppyRead, if_neg hnot] at h
  obtain ⟨s₁, h₁, h⟩ := Option.bind_eq_some_iff.1 h
  obtain ⟨⟨code, s₂⟩, h₂, h⟩ := Option.bind_eq_some_iff.1 h
  obtain ⟨on, hon, hwent₁⟩ := went_controlMotor hdrive 1 h₁
  have hon' : on &&& 0xF0 ≠ 0 := fun h0 => absurd (hon.1 h0) (by decide)
  have hnot₁ : ¬ s₁.currentDrive ≥ 4 := by rwa [hwent₁.currentDrive]
  rw [floppySeek, if_neg hnot₁] at h₂
  rcases went_seekLoop 10 h₂ with ⟨rfl, i, hi, hat, cmds, hwent₂⟩ | ⟨rfl, ⟨cmds, hwent₂⟩, hnone⟩
  · rw [hwent₁.reads] at hat hwent₂
    have hwent := hwent₁.trans hwent₂
    simp only [if_neg (show ¬ (0 : Int32) ≠ 0 by decide)] at h
    obtain ⟨s₃, h₃, h⟩ := Option.bind_eq_some_iff.1 h
    obtain ⟨s₄, h₄, heq⟩ := Option.map_eq_some_iff.1 h
    obtain ⟨rfl, rfl⟩ := Prod.mk.inj heq
    obtain ⟨m, n', hread⟩ := went_readSectorImp h₃
    rw [hwent.currentDrive, hwent.dmaBuffer, hwent.reads] at hread
    have hwent₃ := hwent.trans hread
    obtain ⟨off, hoff, hwent₄⟩ := went_controlMotor (by rwa [hwent₃.currentDrive]) 0 h₄
    have hall := hwent₃.trans hwent₄
    refine ⟨on, _, cmds, hon', Or.inr ⟨?_, i, hi, hat, m, off, hoff.2 rfl, hall⟩⟩
    rw [hall.dmaBuffer]
  · rw [hwent₁.reads] at hwent₂ hnone
    simp only [if_pos (show (-1 : Int32) ≠ 0 by decide)] at h
    obtain ⟨rfl, rfl⟩ := Prod.mk.inj (Option.some.inj h)
    refine ⟨on, _, cmds, hon', Or.inl ⟨rfl, ?_, hwent₁.trans hwent₂⟩⟩
    rintro ⟨i, hi, hat⟩
    exact hnone i hi hat

theorem motorOff_append_fifo (ws : List PortWrite) (cmds : List UInt8) :
    MotorOff (ws ++ fifoWrites cmds) ↔ MotorOff ws := by
  have hnone : (fifoWrites cmds).filter (fun w => w.1 = floppyDor) = [] := by
    refine List.filter_eq_nil_iff.2 fun x hx => ?_
    obtain ⟨cmd, _, rfl⟩ := List.mem_map.1 hx
    rw [decide_eq_true_iff]
    exact fun heq : floppyFifo = floppyDor => absurd heq (by decide)
  rw [MotorOff, List.filter_append, hnone, List.append_nil, MotorOff]

theorem motorOff_append_dor (ws : List PortWrite) (v : UInt8) :
    MotorOff (ws ++ [(floppyDor, v)]) ↔ v &&& 0xF0 = 0 := by
  simp [MotorOff]

/-- A seek that fails leaves the motor on. -/
theorem not_motorOff_of_unanswered {lba : Int32} {r : UInt32} (hdrive : s.currentDrive < 4)
    (h : floppyRead w fuel lba s = some (r, s'))
    (hnone : ¬ SeekAnswered w.answers (floppyConvert lba).2.1.toUInt32 s.reads) :
    ¬ MotorOff s'.writes := by
  obtain ⟨on, n, cmds, hon, ⟨_, _, hwent⟩ | ⟨_, i, hi, hat, _⟩⟩ := went_read hdrive h
  · rwa [hwent.writes, ← List.append_assoc, motorOff_append_fifo, motorOff_append_dor]
  · exact absurd ⟨i, hi, hat.1⟩ hnone

/-- After a seek that succeeds the motor is switched off in the end. -/
theorem motorOff_of_answered {lba : Int32} {r : UInt32} (hdrive : s.currentDrive < 4)
    (h : floppyRead w fuel lba s = some (r, s'))
    (hseek : SeekAnswered w.answers (floppyConvert lba).2.1.toUInt32 s.reads) :
    MotorOff s'.writes := by
  obtain ⟨on, n, cmds, _, ⟨_, hnone, _⟩ | ⟨_, i, hi, hat, m, off, hoff, hwent⟩⟩ := went_read hdrive h
  · exact absurd hseek hnone
  · rwa [hwent.writes, ← List.append_assoc, motorOff_append_dor]

/-- **The motor after a read**: for a drive that can be selected it is off exactly if an attempt at the
seek reports the cylinder; for another one nothing is written. -/
theorem floppyRead_motorOff_iff {lba : Int32} {r : UInt32}
    (h : floppyRead w fuel lba s = some (r, s')) :
    MotorOff s'.writes ↔
      if s.currentDrive < 4 then SeekAnswered w.answers (floppyConvert lba).2.1.toUInt32 s.reads
      else MotorOff s.writes := by
  by_cases hdrive : s.currentDrive < 4
  · rw [if_pos hdrive]
    by_cases hseek : SeekAnswered w.answers (floppyConvert lba).2.1.toUInt32 s.reads
    · exact iff_of_true (motorOff_of_answered hdrive h hseek) hseek
    · exact iff_of_false (not_motorOff_of_unanswered hdrive h hseek) hseek
  · rw [floppyRead, if_pos (UInt8.not_lt.1 hdrive)] at h
    obtain ⟨rfl, rfl⟩ := Prod.mk.inj (Option.some.inj h)
    rw [if_neg hdrive]

/-! ### Interrupts that come at once -/

/-- The controller's interrupt comes before the first test, and so do those of the timer that the
motor takes. -/
structure FdcWorld.Prompt (w : FdcWorld) : Prop where
  irqs : ∀ n, w.irqs n = true
  arrivals : ∀ n, w.arrivals n = 20

theorem FdcWorld.Prompt.waitIrq (hw : w.Prompt) (s : Fdc) : ∃ s', floppyWaitIrq w 1 s = some s' := by
  have hcome : (s.advance w).floppyDiskIRQ = 1 := by
    rw [Fdc.advance, if_pos (hw.irqs _)]
    rfl
  rw [floppyWaitIrq, whileLoop_succ, if_neg (by simp [hcome])]
  exact ⟨_, rfl⟩

theorem FdcWorld.Prompt.sleep (hw : w.Prompt) (t : Timer) : ∃ t', sleep w.arrivals 1 20 t = some t' := by
  have hticks : ¬ (t.advance w.arrivals).timerTicks < t.timerTicks + 20 := by
    rw [Timer.advance, hw.arrivals, Int32.lt_iff_toInt_lt, pitHandler_iterate, Int32.toInt_add]
    exact lt_irrefl _
  rw [CometOS.sleep, whileLoop_succ, if_neg (by simpa using hticks)]
  exact ⟨_, rfl⟩

theorem FdcWorld.Prompt.controlMotor (hw : w.Prompt) (b : Int32) (s : Fdc) :
    ∃ s', floppyControlMotor w 1 b s = some s' := by
  rw [floppyControlMotor]
  split
  · exact ⟨_, rfl⟩
  · obtain ⟨t, ht⟩ := hw.sleep s.timer
    exact ⟨_, Option.map_eq_some_iff.2 ⟨t, ht, rfl⟩⟩

theorem FdcWorld.Prompt.seekAttempt (hw : w.Prompt) (cyl head : UInt32) (s : Fdc) :
    ∃ p, floppySeekAttempt w 1 cyl head s = some p := by
  obtain ⟨t, ht⟩ := hw.waitIrq (floppySendCommands w
    [0x0F, (head <<< 2 ||| s.currentDrive.toUInt32).toUInt8, cyl.toUInt8] s)
  exact ⟨_, Option.map_eq_some_iff.2 ⟨t, ht, rfl⟩⟩

theorem FdcWorld.Prompt.seekLoop (hw : w.Prompt) (cyl head : UInt32) (tries : ℕ) (s : Fdc) :
    ∃ p, floppySeekLoop w 1 cyl head tries s = some p := by
  induction tries generalizing s with
  | zero => exact ⟨_, rfl⟩
  | succ tries ih =>
    obtain ⟨⟨cyl0, t⟩, ht⟩ := hw.seekAttempt cyl head s
    rw [floppySeekLoop, ht, Option.bind_some]
    by_cases hfound : cyl0 = cyl
    · simp only [if_pos hfound]
      exact ⟨_, rfl⟩
    · simp only [if_neg hfound]
      exact ih t

theorem FdcWorld.Prompt.seek (hw : w.Prompt) (cyl head : UInt32) (s : Fdc) :
    ∃ p, floppySeek w 1 cyl head s = some p := by
  rw [floppySeek]
  split
  · exact ⟨_, rfl⟩
  · exact hw.seekLoop cyl head 10 s

theorem FdcWorld.Prompt.readSectorImp (hw : w.Prompt) (head track sector : UInt8) (s : Fdc) :
    ∃ s', floppyReadSectorImp w 1 head track sector s = some s' := by
  obtain ⟨t, ht⟩ := hw.waitIrq (floppySendCommands w (readCommand s.currentDrive head track sector)
    ((s.write (floppyDmaInitialize s.dmaBuffer.toUInt32 512).2).write (dmaSetRead fdcDmaChannel)))
  exact ⟨_, Option.map_eq_some_iff.2 ⟨t, ht, rfl⟩⟩

/-- **Every call returns then**, whatever the controller answers. -/
theorem FdcWorld.Prompt.read (hw : w.Prompt) (lba : Int32) (s : Fdc) :
    ∃ r s', floppyRead w 1 lba s = some (r, s') := by
  rw [floppyRead]
  split
  · exact ⟨_, _, rfl⟩
  · obtain ⟨s₁, h₁⟩ := hw.controlMotor 1 s
    obtain ⟨⟨r, s₂⟩, h₂⟩ := hw.seek (floppyConvert lba).2.1.toUInt32 (floppyConvert lba).1.toUInt32 s₁
    simp only [h₁, h₂, Option.bind_some]
    by_cases hr : r ≠ 0
    · rw [if_pos hr]
      exact ⟨_, _, rfl⟩
    · obtain ⟨s₃, h₃⟩ := hw.readSectorImp (floppyConvert lba).1.toUInt32.toUInt8
        (floppyConvert lba).2.1.toUInt32.toUInt8 (floppyConvert lba).2.2.toUInt32.toUInt8 s₂
      obtain ⟨s₄, h₄⟩ := hw.controlMotor 0 s₃
      rw [if_neg hr, h₃, Option.bind_some, h₄, Option.map_some]
      exact ⟨_, _, rfl⟩

end Ports

/-- A controller that is ready at once and reports `cyl`, and interrupts that come at once. -/
def promptWorld (cyl : UInt8) : FdcWorld where
  answers := fun n => if n % 8 = 7 then cyl else 0x80
  irqs := fun _ => true
  arrivals := fun _ => 20

/-- The first drive, with a buffer at 0x8000. -/
def firstDrive : Fdc where
  currentDrive := 0
  floppyDiskIRQ := 0
  dmaBuffer := 0x8000
  timer := ⟨0, 0⟩
  reads := 0
  tests := 0
  writes := []

theorem promptWorld_prompt (cyl : UInt8) : (promptWorld cyl).Prompt := ⟨fun _ => rfl, fun _ => rfl⟩

/-- The first sector is at cylinder 0: once this is reported it is read. -/
theorem floppyRead_motorOff_first :
    ∃ r s', floppyRead (promptWorld 0) 1 0 firstDrive = some (r, s') ∧ MotorOff s'.writes := by
  obtain ⟨r, s', hread⟩ := (promptWorld_prompt 0).read 0 firstDrive
  exact ⟨r, s', hread, (floppyRead_motorOff_iff hread).2 ⟨0, by decide, by decide +kernel⟩⟩

/-- **The motor is left on**: the seek fails when another cylinder is reported each time, and the
call returns without switching the motor off. -/
theorem floppyRead_leaves_motor_on :
    ¬ ∀ (w : FdcWorld) (fuel : ℕ) (lba : Int32) (s : Fdc) (r : UInt32) (s' : Fdc),
      s.currentDrive < 4 → floppyRead w fuel lba s = some (r, s') → MotorOff s'.writes := by
  intro h
  obtain ⟨r, s', hread⟩ := (promptWorld_prompt 1).read 0 firstDrive
  refine not_motorOff_of_unanswered (by decide) hread ?_ (h _ _ _ _ _ _ (by decide) hread)
  rintro ⟨i, hi, hat⟩
  have hall : ∀ i < 10, (reported (promptWorld 1).answers (attemptStart (promptWorld 1).answers
      firstDrive.reads i)).1.toUInt32 ≠ (floppyConvert 0).2.1.toUInt32 := by
    decide +kernel
  exact hall i hi hat

end CometOS
