import CometOS.Lib.Loop

/-!
# The clock (`arch/i386/time.c`)

The CMOS shows one of its registers at the data port, the one whose number was last written to the
address port.  Time passes between two reads, and what the registers show may change: `clock n r` is
what register `r` shows at the `n`-th read of the data port.

The locals `century` and `registerB` of `read_rtc` are not initialized, so what they hold on entry is
an argument.
-/

namespace CometOS

open Loop

abbrev Clock := ℕ → UInt8 → UInt8

/-- The selected register, and how often the data port has been read. -/
structure Cmos where
  index : UInt8
  reads : ℕ

/-- `outport8(CMOS_ADDRESS, reg)`. -/
def cmosSelect (reg : UInt8) (c : Cmos) : Cmos := { c with index := reg }

/-- `inport8(CMOS_DATA)`. -/
def cmosData (clock : Clock) (c : Cmos) : UInt8 × Cmos :=
  (clock c.reads c.index, { c with reads := c.reads + 1 })

def getUpdateInProgressFlag (clock : Clock) (c : Cmos) : UInt32 × Cmos :=
  let (data, c) := cmosData clock (cmosSelect 0x0A c)
  ((data &&& 0x80).toUInt32, c)

def getRTCRegister (clock : Clock) (reg : UInt32) (c : Cmos) : UInt8 × Cmos :=
  cmosData clock (cmosSelect reg.toUInt8 c)

def timeSec : UInt32 := 0x00
def timeMin : UInt32 := 0x02
def timeHour : UInt32 := 0x04
def timeDom : UInt32 := 0x07
def timeMonth : UInt32 := 0x08
def timeYear : UInt32 := 0x09

def currentYear : UInt32 := 2014

/-- `while (get_update_in_progress_flag());`. -/
def waitWhileUpdating (clock : Clock) (fuel : ℕ) (c : Cmos) : Option Cmos :=
  (whileLoop (fun p : UInt32 × Cmos => p.1 ≠ 0)
    (fun p => some (getUpdateInProgressFlag clock p.2)) fuel (getUpdateInProgressFlag clock c)).map
      Prod.snd

/-- The values as they are read. -/
structure RtcRaw where
  second : UInt8
  minute : UInt8
  hour : UInt8
  day : UInt8
  month : UInt8
  year : UInt8
  century : UInt8
  deriving DecidableEq

/-- The reads of one pass; without a century register `century` stays. -/
def readRegisters (clock : Clock) (centuryRegister : UInt32) (century : UInt8) (c : Cmos) :
    RtcRaw × Cmos :=
  let (second, c) := getRTCRegister clock timeSec c
  let (minute, c) := getRTCRegister clock timeMin c
  let (hour, c) := getRTCRegister clock timeHour c
  let (day, c) := getRTCRegister clock timeDom c
  let (month, c) := getRTCRegister clock timeMonth c
  let (year, c) := getRTCRegister clock timeYear c
  if centuryRegister ≠ 0 then
    let (century, c) := getRTCRegister clock centuryRegister c
    (⟨second, minute, hour, day, month, year, century⟩, c)
  else (⟨second, minute, hour, day, month, year, century⟩, c)

/-- `read_rtc` up to the conversion: `registerB` and the values to convert.  The loop that is entered
if the two passes differ reads neither again. -/
def readRtcRaw (clock : Clock) (centuryRegister : UInt32) (fuel : ℕ) (century registerB : UInt8)
    (c : Cmos) : Option (UInt8 × RtcRaw) :=
  (waitWhileUpdating clock fuel c).bind fun c =>
    let (last, c) := readRegisters clock centuryRegister century c
    (waitWhileUpdating clock fuel c).bind fun c =>
      let (now, c) := readRegisters clock centuryRegister last.century c
      (whileLoop (fun _ : UInt8 × Cmos => last ≠ now)
        (fun p => some (getRTCRegister clock 0x0B p.2)) fuel (registerB, c)).map fun p => (p.1, now)

/-- The globals. -/
structure Rtc where
  second : UInt8
  minute : UInt8
  hour : UInt8
  day : UInt8
  month : UInt8
  year : UInt32

def bcdToBinary (v : UInt8) : UInt8 := (v &&& 0x0F) + v / 16 * 10

def bcdHour (v : UInt8) : UInt8 := ((v &&& 0x0F) + (v &&& 0x70) / 16 * 10) ||| (v &&& 0x80)

def rtcIsBinary (registerB : UInt8) : Bool := registerB.toUInt32 &&& timeHour ≠ 0

def rtcIs24Hour (registerB : UInt8) : Bool := registerB.toUInt32 &&& timeMin ≠ 0

/-- A field other than the hour, converted. -/
def convertField (binary : Bool) (v : UInt8) : UInt8 := if binary then v else bcdToBinary v

def convertHour (binary hour24 : Bool) (v : UInt8) : UInt8 :=
  let hour := if binary then v else bcdHour v
  if hour24 = false ∧ hour &&& 0x80 ≠ 0 then ((hour &&& 0x7F) + 12) % 24 else hour

def convertYear (centuryRegister : UInt32) (binary : Bool) (v century : UInt8) : UInt32 :=
  let year : UInt32 := v.toUInt32
  let year := if binary then year else (year &&& 0x0F) + year / 16 * 10
  if centuryRegister ≠ 0 then year + (convertField binary century).toUInt32 * 100
  else
    let year := year + currentYear / 100 * 100
    if year < currentYear then year + 100 else year

/-- The rest of `read_rtc`. -/
def convertRtc (centuryRegister : UInt32) (registerB : UInt8) (raw : RtcRaw) : Rtc :=
  let binary := rtcIsBinary registerB
  { second := convertField binary raw.second
    minute := convertField binary raw.minute
    hour := convertHour binary (rtcIs24Hour registerB) raw.hour
    day := convertField binary raw.day
    month := convertField binary raw.month
    year := convertYear centuryRegister binary raw.year raw.century }

def readRtc (clock : Clock) (centuryRegister : UInt32) (fuel : ℕ) (century registerB : UInt8)
    (c : Cmos) : Option Rtc :=
  (readRtcRaw clock centuryRegister fuel century registerB c).map fun p =>
    convertRtc centuryRegister p.1 p.2

/-! ### Full reads -/

section Reads

variable {clock : Clock} {centuryRegister : UInt32} {century registerB : UInt8} {c : Cmos}

/-- What one pass sees that starts with read `n`. -/
def registersAt (clock : Clock) (centuryRegister : UInt32) (century : UInt8) (n : ℕ) : RtcRaw where
  second := clock n 0x00
  minute := clock (n + 1) 0x02
  hour := clock (n + 2) 0x04
  day := clock (n + 3) 0x07
  month := clock (n + 4) 0x08
  year := clock (n + 5) 0x09
  century := if centuryRegister ≠ 0 then clock (n + 6) centuryRegister.toUInt8 else century

/-- An update of the clock is shown to be in progress. -/
def Updating (clock : Clock) (n : ℕ) : Prop := clock n 0x0A &&& 0x80 ≠ 0

/-- **A full read** from read `n` up to read `n'`: once no update is in progress, one pass. -/
def FullRead (clock : Clock) (centuryRegister : UInt32) (century : UInt8) (n : ℕ) (raw : RtcRaw)
    (n' : ℕ) : Prop :=
  ∃ k, (∀ j < k, Updating clock (n + j)) ∧ ¬ Updating clock (n + k) ∧
    raw = registersAt clock centuryRegister century (n + k + 1) ∧
    n' = n + k + 1 + if centuryRegister ≠ 0 then 7 else 6

/-- Two full reads, one after the other, that agree. -/
def AgreeAt (clock : Clock) (centuryRegister : UInt32) (century : UInt8) (n : ℕ) (raw : RtcRaw) : Prop :=
  ∃ n' n'', FullRead clock centuryRegister century n raw n' ∧
    FullRead clock centuryRegister raw.century n' raw n''

/-- From some point on two full reads agree. -/
def EventuallyAgree (clock : Clock) (centuryRegister : UInt32) (century : UInt8) : Prop :=
  ∃ N, ∀ n, N ≤ n → ∃ raw, AgreeAt clock centuryRegister century n raw

/-- It comes to the conversion, and with values on which two full reads agreed. -/
def RtcStable (clock : Clock) (centuryRegister : UInt32) (century registerB : UInt8) (c : Cmos) : Prop :=
  (∃ fuel r, readRtcRaw clock centuryRegister fuel century registerB c = some r) ∧
    ∀ fuel r, readRtcRaw clock centuryRegister fuel century registerB c = some r →
      ∃ n, AgreeAt clock centuryRegister century n r.2

theorem readRegisters_eq : readRegisters clock centuryRegister century c =
    (registersAt clock centuryRegister century c.reads,
      ⟨if centuryRegister ≠ 0 then centuryRegister.toUInt8 else 0x09,
        c.reads + if centuryRegister ≠ 0 then 7 else 6⟩) := by
  by_cases h : centuryRegister ≠ 0
  · simp only [readRegisters, registersAt, if_pos h]
    rfl
  · simp only [readRegisters, registersAt, if_neg h]
    rfl

theorem waiting_iterate (k : ℕ) :
    (fun p : UInt32 × Cmos => getUpdateInProgressFlag clock p.2)^[k] (getUpdateInProgressFlag clock c) =
      ((clock (c.reads + k) 0x0A &&& 0x80).toUInt32, ⟨0x0A, c.reads + k + 1⟩) := by
  induction k with
  | zero => rfl
  | succ k ih =>
    rw [Function.iterate_succ_apply', ih]
    rfl

theorem flag_ne_zero (n : ℕ) : (clock n 0x0A &&& 0x80).toUInt32 ≠ 0 ↔ Updating clock n := by
  rw [Updating, not_iff_not, ← UInt32.toNat_inj, ← UInt8.toNat_inj, UInt8.toNat_toUInt32]
  rfl

/-- The wait ends with the first read that shows no update. -/
theorem waitWhileUpdating_iff {c' : Cmos} :
    (∃ fuel, waitWhileUpdating clock fuel c = some c') ↔
      ∃ k, (∀ j < k, Updating clock (c.reads + j)) ∧ ¬ Updating clock (c.reads + k) ∧
        c' = ⟨0x0A, c.reads + k + 1⟩ := by
  constructor
  · rintro ⟨fuel, h⟩
    obtain ⟨p, hp, rfl⟩ := Option.map_eq_some_iff.1 h
    obtain ⟨k, hbefore, hend, rfl⟩ := whileLoop_eq_some fuel _ _ hp
    rw [waiting_iterate] at hend ⊢
    refine ⟨k, fun j hj => ?_, ?_, rfl⟩
    · have hj' := hbefore j hj
      rw [waiting_iterate, decide_eq_true_iff] at hj'
      exact (flag_ne_zero _).1 hj'
    · rw [decide_eq_false_iff_not, flag_ne_zero] at hend
      exact hend
  · rintro ⟨k, hbefore, hend, rfl⟩
    refine ⟨k + 1, ?_⟩
    rw [waitWhileUpdating, whileLoop_first k _ (fun j hj => ?_) ?_ _ (Nat.lt_succ_self k),
      waiting_iterate]
    · rfl
    · rw [waiting_iterate, decide_eq_false_iff_not, flag_ne_zero]
      exact hend
    · rw [waiting_iterate, decide_eq_true_iff, flag_ne_zero]
      exact hbefore j hj

/-- A wait and a pass are a full read. -/
theorem fullRead_iff {raw : RtcRaw} {n' : ℕ} :
    (∃ fuel c', waitWhileUpdating clock fuel c = some c' ∧
      (readRegisters clock centuryRegister century c').1 = raw ∧
      (readRegisters clock centuryRegister century c').2.reads = n') ↔
    FullRead clock centuryRegister century c.reads raw n' := by
  simp only [readRegisters_eq]
  constructor
  · rintro ⟨fuel, c', hwait, rfl, rfl⟩
    obtain ⟨k, hbefore, hend, rfl⟩ := waitWhileUpdating_iff.1 ⟨fuel, hwait⟩
    exact ⟨k, hbefore, hend, rfl, rfl⟩
  · rintro ⟨k, hbefore, hend, rfl, rfl⟩
    obtain ⟨fuel, hwait⟩ := waitWhileUpdating_iff.2 ⟨k, hbefore, hend, rfl⟩
    exact ⟨fuel, _, hwait, rfl, rfl⟩

theorem waitWhileUpdating_mono {fuel fuel' : ℕ} {c' : Cmos}
    (h : waitWhileUpdating clock fuel c = some c') (hle : fuel ≤ fuel') :
    waitWhileUpdating clock fuel' c = some c' := by
  obtain ⟨p, hp, rfl⟩ := Option.map_eq_some_iff.1 h
  rw [waitWhileUpdating, whileLoop_mono fuel fuel' _ _ hp hle, Option.map_some]

/-- **What comes to be converted**: values on which the first two full reads agree; `registerB` is as
it was. -/
theorem readRtcRaw_iff {r : UInt8 × RtcRaw} :
    (∃ fuel, readRtcRaw clock centuryRegister fuel century registerB c = some r) ↔
      r.1 = registerB ∧ AgreeAt clock centuryRegister century c.reads r.2 := by
  constructor
  · rintro ⟨fuel, h⟩
    rw [readRtcRaw] at h
    obtain ⟨c₁, hwait₁, h⟩ := Option.bind_eq_some_iff.1 h
    obtain ⟨⟨last, c₁'⟩, hlast⟩ : ∃ p, readRegisters clock centuryRegister century c₁ = p := ⟨_, rfl⟩
    simp only [hlast] at h
    obtain ⟨c₂, hwait₂, h⟩ := Option.bind_eq_some_iff.1 h
    obtain ⟨⟨now, c₂'⟩, hnow⟩ : ∃ p, readRegisters clock centuryRegister last.century c₂ = p :=
      ⟨_, rfl⟩
    simp only [hnow] at h
    obtain ⟨p, hp, rfl⟩ := Option.map_eq_some_iff.1 h
    obtain ⟨n, hbefore, hend, rfl⟩ := whileLoop_eq_some fuel _ _ hp
    -- the test does not depend on what the loop does
    obtain rfl : last = now := of_not_not (of_decide_eq_false hend)
    obtain rfl : n = 0 := by
      by_contra hn
      exact of_decide_eq_true (hbefore 0 (by omega)) rfl
    refine ⟨rfl, c₁'.reads, c₂'.reads, fullRead_iff.1 ⟨fuel, c₁, hwait₁, ?_, ?_⟩,
      fullRead_iff.1 ⟨fuel, c₂, hwait₂, ?_, ?_⟩⟩
    · rw [hlast]
    · rw [hlast]
    · rw [hnow]
    · rw [hnow]
  · obtain ⟨b, raw⟩ := r
    rintro ⟨hb, n', n'', h₁, h₂⟩
    obtain ⟨fuel₁, c₁, hwait₁, hraw₁, rfl⟩ := fullRead_iff.2 h₁
    obtain ⟨fuel₂, c₂, hwait₂, hraw₂, rfl⟩ := fullRead_iff.2 h₂
    have hb' : b = registerB := hb
    subst hb'
    refine ⟨max fuel₁ fuel₂ + 1, ?_⟩
    rw [readRtcRaw, waitWhileUpdating_mono hwait₁ (by omega), Option.bind_some]
    simp only [hraw₁]
    rw [waitWhileUpdating_mono hwait₂ (by omega), Option.bind_some]
    simp only [hraw₂]
    rw [whileLoop_succ, if_neg (by simp)]
    rfl

/-- **`read_rtc` and a ticking clock, exactly.**  It comes to the conversion, and with values that two
full reads agreed on, if and only if the first two full reads agree. -/
theorem rtc_stable_iff (clock : Clock) (centuryRegister : UInt32) (century registerB : UInt8)
    (c : Cmos) : RtcStable clock centuryRegister century registerB c ↔
      ∃ raw, AgreeAt clock centuryRegister century c.reads raw := by
  constructor
  · rintro ⟨⟨fuel, r, h⟩, _⟩
    exact ⟨r.2, (readRtcRaw_iff.1 ⟨fuel, h⟩).2⟩
  · rintro ⟨raw, h⟩
    obtain ⟨fuel, hr⟩ := (readRtcRaw_iff (r := (registerB, raw))).2 ⟨rfl, h⟩
    exact ⟨⟨fuel, (registerB, raw), hr⟩, fun fuel r hr => ⟨_, (readRtcRaw_iff.1 ⟨fuel, hr⟩).2⟩⟩

/-- A full read while no update is shown. -/
theorem fullRead_of_still {n : ℕ} (h : ¬ Updating clock n) :
    FullRead clock centuryRegister century n (registersAt clock centuryRegister century (n + 1))
      (n + 1 + if centuryRegister ≠ 0 then 7 else 6) :=
  ⟨0, fun j hj => absurd hj (Nat.not_lt_zero j), h, rfl, rfl⟩

/-- Without an update there is one full read. -/
theorem FullRead.eq_of_still {n n' : ℕ} {raw : RtcRaw}
    (h : FullRead clock centuryRegister century n raw n') (hstill : ¬ Updating clock n) :
    raw = registersAt clock centuryRegister century (n + 1) ∧
      n' = n + 1 + if centuryRegister ≠ 0 then 7 else 6 := by
  obtain ⟨k, hbefore, _, hraw, hn'⟩ := h
  obtain rfl : k = 0 := by
    by_contra hk
    exact hstill (hbefore 0 (by omega))
  exact ⟨hraw, hn'⟩

/-- **A tick between the two passes**: the second read is 0 the first time and 1 from then on.  Two
full reads agree from the second one on, and `read_rtc` never gets to the conversion. -/
theorem rtc_hangs_on_tick :
    ¬ ∀ (clock : Clock) (centuryRegister : UInt32) (century registerB : UInt8) (c : Cmos),
      EventuallyAgree clock centuryRegister century →
        RtcStable clock centuryRegister century registerB c := by
  intro h
  obtain ⟨clock, hclock⟩ : ∃ clock : Clock, clock = fun n r => if r = 0 ∧ 7 ≤ n then 1 else 0 :=
    ⟨_, rfl⟩
  have hstill : ∀ n, ¬ Updating clock n := by
    intro n
    rw [Updating, hclock]
    simp
  have hlater : ∀ n, 7 ≤ n → registersAt clock 0 0 n = ⟨1, 0, 0, 0, 0, 0, 0⟩ := by
    intro n hn
    rw [registersAt, hclock]
    simp [hn]
  have hread : ∀ n, 7 ≤ n → FullRead clock 0 0 n ⟨1, 0, 0, 0, 0, 0, 0⟩ (n + 7) := by
    intro n hn
    have hfull := @fullRead_of_still clock 0 0 n (hstill n)
    rwa [hlater (n + 1) (by omega)] at hfull
  have hagree : EventuallyAgree clock 0 0 :=
    ⟨7, fun n hn => ⟨_, n + 7, n + 7 + 7, hread n hn, hread (n + 7) (by omega)⟩⟩
  obtain ⟨⟨fuel, r, hr⟩, _⟩ := h clock 0 0 0 ⟨0, 0⟩ hagree
  obtain ⟨_, n', n'', h₁, h₂⟩ := readRtcRaw_iff.1 ⟨fuel, hr⟩
  obtain ⟨hraw₁, rfl⟩ := h₁.eq_of_still (hstill _)
  obtain ⟨hraw₂, _⟩ := h₂.eq_of_still (hstill _)
  have hsecond : clock 1 0 = clock 8 0 := congrArg RtcRaw.second (hraw₁.symm.trans hraw₂)
  rw [hclock] at hsecond
  exact absurd hsecond (by decide)

end Reads

end CometOS
