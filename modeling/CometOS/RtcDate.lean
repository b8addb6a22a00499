import CometOS.Rtc

/-!
# What date the clock is read as

A clock holds a date in one of four formats, which register B reports.  `read_rtc` converts what it has
read by its local `registerB`, which has not been read from there.
-/

namespace CometOS

/-- A date and time that two digits of the year tell. -/
structure DateTime where
  second : ℕ
  minute : ℕ
  hour : ℕ
  day : ℕ
  month : ℕ
  year : ℕ
  second_lt : second < 60
  minute_lt : minute < 60
  hour_lt : hour < 24
  day_pos : 0 < day
  day_le : day ≤ 31
  month_pos : 0 < month
  month_le : month ≤ 12
  year_ge : 2014 ≤ year
  year_le : year ≤ 2113

/-- A number below 100 in binary, or a digit to each half of the byte. -/
def encodeField (binary : Bool) (n : ℕ) : UInt8 :=
  UInt8.ofNat (if binary then n else n / 10 * 16 + n % 10)

/-- The hour as it is counted: from 0 to 23, or from 1 to 12. -/
def countedHour (hour24 : Bool) (hour : ℕ) : ℕ := if hour24 then hour else (hour + 11) % 12 + 1

/-- With twelve hours the top bit says that it is past noon. -/
def encodeHour (binary hour24 : Bool) (hour : ℕ) : UInt8 :=
  encodeField binary (countedHour hour24 hour) |||
    if hour24 = false ∧ 12 ≤ hour then 0x80 else 0

/-- The registers hold a date, in the format that register B reports, and they go on to hold it. -/
structure Holds (clock : Clock) (registerB : UInt8) (date : DateTime) : Prop where
  second : ∀ n, clock n 0x00 = encodeField (rtcIsBinary registerB) date.second
  minute : ∀ n, clock n 0x02 = encodeField (rtcIsBinary registerB) date.minute
  hour : ∀ n, clock n 0x04 = encodeHour (rtcIsBinary registerB) (rtcIs24Hour registerB) date.hour
  day : ∀ n, clock n 0x07 = encodeField (rtcIsBinary registerB) date.day
  month : ∀ n, clock n 0x08 = encodeField (rtcIsBinary registerB) date.month
  year : ∀ n, clock n 0x09 = encodeField (rtcIsBinary registerB) (date.year % 100)
  format : ∀ n, clock n 0x0B = registerB

/-- No update is shown to be in progress for ever. -/
def UpdatesEnd (clock : Clock) : Prop := ∀ n, ∃ m, n ≤ m ∧ ¬ Updating clock m

/-- The globals are the date. -/
def Rtc.Is (r : Rtc) (date : DateTime) : Prop :=
  r.second.toNat = date.second ∧ r.minute.toNat = date.minute ∧ r.hour.toNat = date.hour ∧
    r.day.toNat = date.day ∧ r.month.toNat = date.month ∧ r.year.toNat = date.year

/-- `read_rtc` returns, and leaves the date. -/
def ReadsDate (clock : Clock) (century registerB : UInt8) (c : Cmos) (date : DateTime) : Prop :=
  ∃ fuel r, readRtc clock 0 fuel century registerB c = some r ∧ r.Is date

/-- A number is read as itself, if it was written the way it is read, or else if it is small. -/
def ReadsBack (written read : Bool) (n : ℕ) : Prop :=
  read = written ∨ n < if written then 16 else 10

/-- The local `registerB` tells binary from digits as register B does, or all the numbers are small; and
with twelve hours it is not midnight or noon, and past noon the local `registerB` tells that too. -/
def DateMet (registerB stray : UInt8) (date : DateTime) : Prop :=
  (∀ n ∈ [date.second, date.minute, countedHour (rtcIs24Hour registerB) date.hour, date.day, date.month,
      date.year % 100], ReadsBack (rtcIsBinary registerB) (rtcIsBinary stray) n) ∧
    (rtcIs24Hour registerB = true ∨
      date.hour ≠ 0 ∧ date.hour ≠ 12 ∧ (date.hour < 12 ∨ rtcIs24Hour stray = false))

section Date

variable {clock : Clock} {registerB stray century : UInt8} {c : Cmos} {date : DateTime}

/-! ### One field -/

instance (written read : Bool) (n : ℕ) : Decidable (ReadsBack written read n) :=
  inferInstanceAs (Decidable (_ ∨ _))

/-- A number below 100, by each way of writing and of reading it. -/
theorem convertField_iff (written read : Bool) :
    ∀ n < 100, (convertField read (encodeField written n)).toNat = n ↔ ReadsBack written read n := by
  cases written with
  | false => cases read <;> decide +kernel
  | true => cases read <;> decide +kernel

/-- The hour: midnight and noon come out wrong with twelve hours, whatever is stray. -/
theorem convertHour_iff (written read hour24 hour24' : Bool) :
    ∀ h < 24, (convertHour read hour24' (encodeHour written hour24 h)).toNat = h ↔
      ReadsBack written read (countedHour hour24 h) ∧
        (hour24 = true ∨ h ≠ 0 ∧ h ≠ 12 ∧ (h < 12 ∨ hour24' = false)) := by
  cases written with
  | false => cases read <;> cases hour24 <;> cases hour24' <;> decide +kernel
  | true => cases read <;> cases hour24 <;> cases hour24' <;> decide +kernel

/-- The year, by its two digits: those below 14 are of the next century. -/
theorem convertYear_iff (written read : Bool) (century : UInt8) : ∀ k < 100,
    (convertYear 0 read (encodeField written ((2014 + k) % 100)) century).toNat = 2014 + k ↔
      ReadsBack written read ((2014 + k) % 100) := by
  have hcentury : ∀ v, convertYear 0 read v century = convertYear 0 read v 0 := fun _ => rfl
  simp only [hcentury]
  cases written with
  | false => cases read <;> decide +kernel
  | true => cases read <;> decide +kernel

/-! ### The whole date -/

/-- What one pass sees of a clock that holds a date. -/
theorem Holds.registersAt_eq (h : Holds clock registerB date) (n : ℕ) :
    registersAt clock 0 century n =
      { second := encodeField (rtcIsBinary registerB) date.second
        minute := encodeField (rtcIsBinary registerB) date.minute
        hour := encodeHour (rtcIsBinary registerB) (rtcIs24Hour registerB) date.hour
        day := encodeField (rtcIsBinary registerB) date.day
        month := encodeField (rtcIsBinary registerB) date.month
        year := encodeField (rtcIsBinary registerB) (date.year % 100)
        century := century } := by
  rw [registersAt, h.second, h.minute, h.hour, h.day, h.month, h.year, if_neg (not_not.2 rfl)]

/-- A full read comes to an end, and sees the date. -/
theorem Holds.fullRead (h : Holds clock registerB date) (hend : UpdatesEnd clock) (n : ℕ) :
    ∃ n', FullRead clock 0 century n (registersAt clock 0 century 0) n' := by
  classical
  have hstill : ∃ k, ¬ Updating clock (n + k) := by
    obtain ⟨m, hm, hstill⟩ := hend n
    exact ⟨m - n, by rwa [Nat.add_sub_cancel' hm]⟩
  refine ⟨_, Nat.find hstill, fun j hj => not_not.1 (Nat.find_min hstill hj), Nat.find_spec hstill, ?_,
    rfl⟩
  rw [h.registersAt_eq, h.registersAt_eq]

/-- **What is converted** is what the registers hold, by a `registerB` that nothing was read to. -/
theorem Holds.readRtc_iff (h : Holds clock registerB date) (hend : UpdatesEnd clock) {r : Rtc} :
    (∃ fuel, readRtc clock 0 fuel century stray c = some r) ↔
      convertRtc 0 stray (registersAt clock 0 century 0) = r := by
  constructor
  · rintro ⟨fuel, hr⟩
    obtain ⟨⟨b, raw⟩, hraw, rfl⟩ := Option.map_eq_some_iff.1 hr
    obtain ⟨hb, n', n'', hfull, _⟩ := readRtcRaw_iff.1 ⟨fuel, hraw⟩
    obtain ⟨k, _, _, heq, _⟩ := hfull
    have hb' : b = stray := hb
    have heq' : raw = registersAt clock 0 century 0 :=
      heq.trans (by rw [h.registersAt_eq, h.registersAt_eq])
    rw [hb', heq']
  · rintro rfl
    obtain ⟨n', hfirst⟩ := @Holds.fullRead clock registerB century date h hend c.reads
    obtain ⟨n'', hsecond⟩ := @Holds.fullRead clock registerB century date h hend n'
    have hcentury : (registersAt clock 0 century 0).century = century := rfl
    obtain ⟨fuel, hr⟩ := (readRtcRaw_iff (r := (stray, registersAt clock 0 century 0))).2
      ⟨rfl, n', n'', hfirst, by rw [hcentury]; exact hsecond⟩
    exact ⟨fuel, by rw [readRtc, hr]; rfl⟩

/-- **`read_rtc` and the date, exactly.**  With no century register, and registers that hold a date and
do not change. -/
theorem reads_date_iff (clock : Clock) (registerB century stray : UInt8) (c : Cmos) (date : DateTime)
    (h : Holds clock registerB date) (hend : UpdatesEnd clock) :
    ReadsDate clock century stray c date ↔ DateMet registerB stray date := by
  have hcall : ReadsDate clock century stray c date ↔
      (convertRtc 0 stray (registersAt clock 0 century 0)).Is date := by
    constructor
    · rintro ⟨fuel, r, hr, his⟩
      rwa [(h.readRtc_iff hend).1 ⟨fuel, hr⟩]
    · intro his
      obtain ⟨fuel, hr⟩ := (h.readRtc_iff hend).2 rfl
      exact ⟨fuel, _, hr, his⟩
  obtain ⟨k, hk⟩ : ∃ k, date.year = 2014 + k := ⟨date.year - 2014, by have := date.year_ge; omega⟩
  have hyear := convertYear_iff (rtcIsBinary registerB) (rtcIsBinary stray) century k
    (by have := date.year_le; omega)
  rw [← hk] at hyear
  have hsecond := date.second_lt
  have hminute := date.minute_lt
  have hday := date.day_le
  have hmonth := date.month_le
  have hfield := convertField_iff (rtcIsBinary registerB) (rtcIsBinary stray)
  have hhour := convertHour_iff (rtcIsBinary registerB) (rtcIsBinary stray) (rtcIs24Hour registerB)
    (rtcIs24Hour stray) date.hour date.hour_lt
  rw [hcall, h.registersAt_eq, Rtc.Is, DateMet]
  simp only [convertRtc, hfield date.second (by omega), hfield date.minute (by omega),
    hfield date.day (by omega), hfield date.month (by omega), hhour, hyear, List.forall_mem_cons,
    List.not_mem_nil, false_implies, implies_true, and_true]
  constructor
  · rintro ⟨hs, hm, ⟨hh, htwelve⟩, hd, hmo, hy⟩
    exact ⟨⟨hs, hm, hh, hd, hmo, hy⟩, htwelve⟩
  · rintro ⟨⟨hs, hm, hh, hd, hmo, hy⟩, htwelve⟩
    exact ⟨hs, hm, ⟨hh, htwelve⟩, hd, hmo, hy⟩

/-- 9:41:30 on the ninth of January 2014, on a 24-hour clock in digits, with a stray 0. -/
def januaryNinth : DateTime where
  second := 30
  minute := 41
  hour := 9
  day := 9
  month := 1
  year := 2014
  second_lt := by decide
  minute_lt := by decide
  hour_lt := by decide
  day_pos := by decide
  day_le := by decide
  month_pos := by decide
  month_le := by decide
  year_ge := by decide
  year_le := by decide

/-- A clock that holds it, in the format of `registerB`. -/
def januaryClock (registerB : UInt8) : Clock := fun _ r =>
  if r = 0x00 then encodeField (rtcIsBinary registerB) 30
  else if r = 0x02 then encodeField (rtcIsBinary registerB) 41
  else if r = 0x04 then encodeHour (rtcIsBinary registerB) (rtcIs24Hour registerB) 9
  else if r = 0x07 then encodeField (rtcIsBinary registerB) 9
  else if r = 0x08 then encodeField (rtcIsBinary registerB) 1
  else if r = 0x09 then encodeField (rtcIsBinary registerB) 14
  else if r = 0x0B then registerB
  else 0

theorem januaryClock_holds (registerB : UInt8) :
    Holds (januaryClock registerB) registerB januaryNinth := by
  constructor <;> exact fun _ => rfl

theorem januaryClock_updatesEnd (registerB : UInt8) : UpdatesEnd (januaryClock registerB) := by
  intro n
  refine ⟨n, le_rfl, ?_⟩
  rw [Updating, show januaryClock registerB n 0x0A = 0 from rfl]
  decide

/-- With a 24-hour clock in digits and a stray 0 that date is read. -/
theorem reads_date_january : ReadsDate (januaryClock 0x02) 0 0 ⟨0, 0⟩ januaryNinth :=
  (reads_date_iff (januaryClock 0x02) 0x02 0 0 ⟨0, 0⟩ januaryNinth (januaryClock_holds 0x02)
    (januaryClock_updatesEnd 0x02)).2 ⟨by decide, by decide⟩

/-- **Register B is not read**: with a stray 4 the digits of that date's seconds are taken for a number
in binary. -/
theorem reads_date_stray : ¬ ∀ (clock : Clock) (registerB century stray : UInt8) (c : Cmos)
    (date : DateTime), Holds clock registerB date → UpdatesEnd clock →
      ReadsDate clock century stray c date := by
  intro h
  obtain ⟨fuel, r, hr, his⟩ := h (januaryClock 0x02) 0x02 0 0x04 ⟨0, 0⟩ januaryNinth
    (januaryClock_holds 0x02) (januaryClock_updatesEnd 0x02)
  rw [← ((januaryClock_holds 0x02).readRtc_iff (januaryClock_updatesEnd 0x02)).1 ⟨fuel, hr⟩] at his
  exact absurd his.1 (by decide)

end Date

end CometOS
