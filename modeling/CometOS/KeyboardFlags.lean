import CometOS.Keyboard

/-!
# The shift and caps lock flags (`kernel/kernel/kb.c`)

Which shift keys are held is read off the scancodes themselves.  A key that has the prefix 0xE0 is
another one than the key without it: the keyboard sends such scancodes of both shift keys around
those of other keys, and no shift key is pressed or released then.
-/

namespace CometOS

open Run

/-- What the scancodes so far say: whether the last one is a prefix, and which shift keys are held. -/
structure Shifts where
  prefixed : Bool
  left : Bool
  right : Bool

def Shifts.next (k : Shifts) (scancode : UInt8) : Shifts where
  prefixed := scancode = 0xE0
  left := if k.prefixed then k.left else if scancode = 0x2A then true
    else if scancode = 0xAA then false else k.left
  right := if k.prefixed then k.right else if scancode = 0x36 then true
    else if scancode = 0xB6 then false else k.right

def shifts (received : List UInt8) : Shifts := received.foldl Shifts.next ⟨false, false, false⟩

/-- At least one shift key is held. -/
def ShiftHeld (received : List UInt8) : Prop :=
  (shifts received).left = true ∨ (shifts received).right = true

instance (received : List UInt8) : Decidable (ShiftHeld received) := inferInstanceAs (Decidable (_ ∨ _))

/-- The last LED mask that has been sent, the byte after the command 0xED. -/
def lastLeds : List (UInt16 × UInt8) → UInt8
  | [] => 0
  | [_] => 0
  | mask :: command :: ports =>
    if mask.1 = 0x60 ∧ command = (0x60, 0xED) then mask.2 else lastLeds (command :: ports)

/-- The flags tell what is held, and what the LED shows. -/
structure FlagsOk (r : KeyboardRun) : Prop where
  shift : r.keyboard.kbShiftFlag = 1 ↔ ShiftHeld r.received
  caps : lastLeds r.keyboard.ports &&& 4 ≠ 0 ↔ r.keyboard.kbCapsFlag = 1

/-- The scancode of a shift key's press leaves one held, that of a release none, and caps lock is
pressed only once. -/
structure FlagsMet (r : KeyboardRun) (scancode : UInt8) : Prop where
  press : IsShift scancode → ShiftHeld (r.received ++ [scancode])
  release : scancode = 0xAA ∨ scancode = 0xB6 → ¬ ShiftHeld (r.received ++ [scancode])
  caps : scancode = 0x3A → 0x3A ∉ r.received

/-! ### What the handler does to the flags -/

section Handler

variable {s : Keyboard} {scancode : UInt8}

theorem isPress_of_isShift (h : IsShift scancode) : IsPress scancode := by
  rcases h with rfl | rfl
  · decide
  · decide

theorem isRelease_iff :
    (¬ IsPress scancode ∧ IsShift (scancode - 0x80)) ↔ scancode = 0xAA ∨ scancode = 0xB6 := by
  constructor
  · rintro ⟨_, h | h⟩
    · exact Or.inl (by rw [← UInt8.sub_add_cancel scancode 0x80, h]; rfl)
    · exact Or.inr (by rw [← UInt8.sub_add_cancel scancode 0x80, h]; rfl)
  · rintro (rfl | rfl)
    · exact ⟨by decide, by decide⟩
    · exact ⟨by decide, by decide⟩

/-- The flags, the LEDs and what has been sent. -/
def Keyboard.flags (s : Keyboard) : ℤ × ℤ × UInt16 × List (UInt16 × UInt8) :=
  (s.kbShiftFlag, s.kbCapsFlag, s.kbLtmp, s.ports)

theorem kbStoreRaw_flags : (kbStoreRaw scancode s).flags = s.flags := by
  unfold kbStoreRaw
  split
  · rfl
  · rfl

theorem kbStore_flags : (kbStore scancode s).flags = s.flags := by
  unfold kbStore
  split
  · rfl
  · rfl

theorem kbSetLeds_congr {t : Keyboard} (h : s.flags = t.flags) :
    (kbSetLeds scancode s).flags = (kbSetLeds scancode t).flags := by
  obtain ⟨h1, h2, h3, h4⟩ : s.kbShiftFlag = t.kbShiftFlag ∧ s.kbCapsFlag = t.kbCapsFlag ∧
      s.kbLtmp = t.kbLtmp ∧ s.ports = t.ports := by
    simpa only [Keyboard.flags, Prod.mk.injEq] using h
  unfold kbSetLeds kbLed Keyboard.flags
  split
  · simp only [h1, h2, h3, h4]
  · split
    · simp only [h1, h2, h3, h4]
    · split
      · simp only [h1, h2, h3, h4]
      · simp only [h1, h2, h3, h4]

theorem kbSetLeds_shift : (kbSetLeds scancode s).kbShiftFlag = s.kbShiftFlag := by
  unfold kbSetLeds
  split
  · rfl
  · split
    · rfl
    · split
      · rfl
      · rfl

/-- **What the handler does to the flags**: the shift flag follows the scancodes of shift keys, and the
rest is done by the second part. -/
theorem keyboardHandler_flags (scancode : UInt8) (s : Keyboard) :
    (keyboardHandler scancode s).flags =
      (if IsShift scancode then 1 else if scancode = 0xAA ∨ scancode = 0xB6 then 0 else s.kbShiftFlag,
        (kbSetLeds scancode s).flags.2) := by
  obtain ⟨t, ht⟩ : ∃ t, t = kbSetLeds scancode (kbStoreRaw scancode { s with waitSet := 0 }) := ⟨_, rfl⟩
  have hflags : t.flags = (kbSetLeds scancode s).flags := by
    rw [ht]
    exact kbSetLeds_congr kbStoreRaw_flags
  have hshift : t.kbShiftFlag = s.kbShiftFlag := by
    have hfst : t.kbShiftFlag = (kbSetLeds scancode s).kbShiftFlag := congrArg Prod.fst hflags
    rw [hfst, kbSetLeds_shift]
  rw [← hflags, ← hshift]
  unfold keyboardHandler
  simp only [← ht]
  by_cases hpress : IsPress scancode
  · have hnot : ¬ (scancode = 0xAA ∨ scancode = 0xB6) := fun h => (isRelease_iff.2 h).1 hpress
    by_cases hs : IsShift scancode
    · simp only [hpress, hs, not_true_eq_false, if_false, if_true]
      rfl
    · simp only [hpress, hs, hnot, not_true_eq_false, if_false]
      exact kbStore_flags
  · have hs : ¬ IsShift scancode := fun h => hpress (isPress_of_isShift h)
    by_cases hrelease : IsShift (scancode - 0x80)
    · have hor := isRelease_iff.1 ⟨hpress, hrelease⟩
      simp only [hpress, hs, hrelease, hor, not_false_eq_true, if_true, if_false]
      rfl
    · have hnot : ¬ (scancode = 0xAA ∨ scancode = 0xB6) := fun h => hrelease (isRelease_iff.2 h).2
      simp only [hpress, hs, hrelease, hnot, not_false_eq_true, if_true, if_false]
      rfl

/-- The flag and the LEDs as long as caps lock has been pressed at most once. -/
structure LedsInv (received : List UInt8) (s : Keyboard) : Prop where
  caps : s.kbCapsFlag = if 0x3A ∈ received then 1 else 0
  led : s.kbLtmp.toUInt8 &&& 4 ≠ 0 ↔ 0x3A ∈ received
  sent : lastLeds s.ports &&& 4 = s.kbLtmp.toUInt8 &&& 4

theorem LedsInv.congr {received : List UInt8} {t : Keyboard} (h : LedsInv received s)
    (heq : t.flags.2 = s.flags.2) : LedsInv received t := by
  obtain ⟨h1, h2, h3⟩ : t.kbCapsFlag = s.kbCapsFlag ∧ t.kbLtmp = s.kbLtmp ∧ t.ports = s.ports := by
    simpa only [Keyboard.flags, Prod.mk.injEq] using heq
  refine ⟨by rw [h1]; exact h.caps, by rw [h2]; exact h.led, ?_⟩
  rw [h2, h3]
  exact h.sent

theorem toUInt8_or_and (x led : UInt16) :
    (x ||| led).toUInt8 &&& 4 = (x.toUInt8 &&& 4) ||| (led.toUInt8 &&& 4) := by
  rw [UInt16.toUInt8_or, ← UInt8.toNat_inj, UInt8.toNat_and, UInt8.toNat_or, UInt8.toNat_or,
    UInt8.toNat_and, UInt8.toNat_and, Nat.and_or_distrib_right]

/-- Another key changes neither the flag nor the LED. -/
theorem LedsInv.setLeds_other {received : List UInt8} (h : LedsInv received s) (hne : scancode ≠ 0x3A) :
    LedsInv (received ++ [scancode]) (kbSetLeds scancode s) := by
  have hmem : 0x3A ∈ received ++ [scancode] ↔ 0x3A ∈ received := by
    rw [List.mem_append, List.mem_singleton]
    exact or_iff_left hne.symm
  have hled : ∀ led : UInt16, led.toUInt8 &&& 4 = 0 → LedsInv received (kbLed led s) := by
    intro led h0
    refine ⟨h.caps, ?_, rfl⟩
    rw [kbLed, toUInt8_or_and, h0, UInt8.or_zero]
    exact h.led
  have hset : LedsInv received (kbSetLeds scancode s) := by
    rw [kbSetLeds, if_neg hne]
    split
    · exact hled 2 (by decide)
    · split
      · exact hled 1 (by decide)
      · exact h
  refine ⟨?_, ?_, hset.sent⟩
  · simp only [hmem]
    exact hset.caps
  · rw [hmem]
    exact hset.led

/-- Caps lock switches its LED on, and the flag over. -/
theorem kbSetLeds_caps : (kbSetLeds 0x3A s).kbCapsFlag = (if s.kbCapsFlag ≠ 0 then 0 else 1) ∧
    lastLeds (kbSetLeds 0x3A s).ports = (kbSetLeds 0x3A s).kbLtmp.toUInt8 ∧
    (kbSetLeds 0x3A s).kbLtmp.toUInt8 &&& 4 ≠ 0 := by
  refine ⟨rfl, rfl, fun h => ?_⟩
  have hor : (s.kbLtmp ||| 4).toUInt8 &&& 4 = 0 := h
  rw [toUInt8_or_and, UInt8.or_eq_zero_iff] at hor
  exact absurd hor.2 (by decide)

end Handler

/-! ### Steps and runs -/

/-- What a run keeps while its steps meet the condition. -/
structure FlagsInv (r : KeyboardRun) : Prop where
  shift : r.keyboard.kbShiftFlag = 1 ↔ ShiftHeld r.received
  leds : LedsInv r.received r.keyboard

theorem FlagsInv.flagsOk {r : KeyboardRun} (h : FlagsInv r) : FlagsOk r where
  shift := h.shift
  caps := by
    rw [h.leds.sent, h.leds.led, h.leds.caps]
    split
    · rename_i hmem
      exact iff_of_true hmem rfl
    · rename_i hmem
      exact iff_of_false hmem (by decide)

/-- A scancode of no shift key leaves held what is held. -/
theorem shiftHeld_other {received : List UInt8} {scancode : UInt8} (hpress : ¬ IsShift scancode)
    (hrelease : ¬ (scancode = 0xAA ∨ scancode = 0xB6)) :
    ShiftHeld (received ++ [scancode]) ↔ ShiftHeld received := by
  obtain ⟨hp1, hp2⟩ := not_or.1 hpress
  obtain ⟨hr1, hr2⟩ := not_or.1 hrelease
  have hp1' : scancode ≠ 0x2A := hp1
  have hp2' : scancode ≠ 0x36 := hp2
  simp only [ShiftHeld, shifts, List.foldl_append, List.foldl_cons, List.foldl_nil, Shifts.next, hp1',
    hp2', hr1, hr2, if_false, ite_self]

section Steps

variable {r r' : KeyboardRun} {scancode : UInt8}

/-- The shift flag is right after a step exactly if the step meets the condition. -/
theorem FlagsInv.shift_step (h : FlagsInv r) :
    ((keyboardHandler scancode r.keyboard).kbShiftFlag = 1 ↔ ShiftHeld (r.received ++ [scancode])) ↔
      (IsShift scancode → ShiftHeld (r.received ++ [scancode])) ∧
        (scancode = 0xAA ∨ scancode = 0xB6 → ¬ ShiftHeld (r.received ++ [scancode])) := by
  have hflag : (keyboardHandler scancode r.keyboard).kbShiftFlag = _ :=
    congrArg Prod.fst (keyboardHandler_flags scancode r.keyboard)
  rw [hflag]
  by_cases hs : IsShift scancode
  · have hnot : ¬ (scancode = 0xAA ∨ scancode = 0xB6) :=
      fun hr => (isRelease_iff.2 hr).1 (isPress_of_isShift hs)
    simp [hs, hnot]
  · by_cases hr : scancode = 0xAA ∨ scancode = 0xB6
    · simp [hs, hr]
    · simp only [hs, hr, if_false, false_implies, and_self, iff_true]
      rw [shiftHeld_other hs hr]
      exact h.shift

theorem FlagsInv.step (h : FlagsInv r) (hc : FlagsMet r scancode)
    (hstep : keyboardStep r scancode = some r') : FlagsInv r' := by
  obtain rfl := Option.some.inj hstep
  refine ⟨h.shift_step.2 ⟨hc.press, hc.release⟩, ?_⟩
  have hrest : (keyboardHandler scancode r.keyboard).flags.2 = _ :=
    congrArg Prod.snd (keyboardHandler_flags scancode r.keyboard)
  refine LedsInv.congr ?_ hrest
  by_cases hcaps : scancode = 0x3A
  · subst hcaps
    obtain ⟨hflag, hsent, hled⟩ := @kbSetLeds_caps r.keyboard
    have hmem : (0x3A : UInt8) ∈ r.received ++ [0x3A] := List.mem_append_right _ List.mem_cons_self
    refine ⟨?_, iff_of_true hled hmem, by rw [hsent]⟩
    rw [hflag, h.leds.caps, if_neg (hc.caps rfl), if_pos hmem]
    rfl
  · exact h.leds.setLeds_other hcaps

/-- **A step that misses the condition**: the flag tells a shift key that is not held or not one that
is, or caps lock is off with its LED on. -/
theorem FlagsInv.not_ok (h : FlagsInv r) (hc : ¬ FlagsMet r scancode)
    (hstep : keyboardStep r scancode = some r') : ¬ FlagsOk r' := by
  obtain rfl := Option.some.inj hstep
  intro hok
  obtain ⟨hpress, hrelease⟩ := h.shift_step.1 hok.shift
  refine hc ⟨hpress, hrelease, ?_⟩
  rintro rfl hmem
  obtain ⟨hflag, hsent, hled⟩ := @kbSetLeds_caps r.keyboard
  have hrest : (keyboardHandler 0x3A r.keyboard).flags.2 = (kbSetLeds 0x3A r.keyboard).flags.2 :=
    congrArg Prod.snd (keyboardHandler_flags 0x3A r.keyboard)
  obtain ⟨hcaps, _, hports⟩ : (keyboardHandler 0x3A r.keyboard).kbCapsFlag = _ ∧
      (keyboardHandler 0x3A r.keyboard).kbLtmp = _ ∧ (keyboardHandler 0x3A r.keyboard).ports = _ := by
    simpa only [Keyboard.flags, Prod.mk.injEq] using hrest
  have hon := hok.caps.1 (by
    show lastLeds (keyboardHandler 0x3A r.keyboard).ports &&& 4 ≠ 0
    rw [hports, hsent]
    exact hled)
  rw [show (keyboardHandler 0x3A r.keyboard).kbCapsFlag = _ from hcaps, hflag, h.leds.caps,
    if_pos hmem] at hon
  exact absurd hon (by decide)

end Steps

theorem flagsInv_start (kbBuffer kbBufferRaw : ℕ → UInt8) :
    FlagsInv (keyboardRunStart kbBuffer kbBufferRaw) := by
  refine ⟨?_, ?_, ?_, ?_⟩
  · exact iff_of_false (show ¬ (0 : ℤ) = 1 by decide) (show ¬ ShiftHeld [] by decide)
  · rfl
  · exact iff_of_false (show ¬ (0 : UInt16).toUInt8 &&& 4 ≠ 0 by decide) List.not_mem_nil
  · rfl

/-- **The keyboard flags.**  From boot on they are right after each call exactly as long as the steps
meet the condition. -/
theorem keyboard_flags_iff (kbBuffer kbBufferRaw : ℕ → UInt8) (scancodes : List UInt8) :
    AllStates keyboardStep FlagsOk (keyboardRunStart kbBuffer kbBufferRaw) scancodes ↔
      AllSteps keyboardStep FlagsMet (keyboardRunStart kbBuffer kbBufferRaw) scancodes :=
  allStates_iff_allSteps (fun _ h => h.flagsOk) (fun _ _ _ h => h.step) (fun _ _ _ h => h.not_ok)
    scancodes _ (flagsInv_start kbBuffer kbBufferRaw)

/-- **One flag for two keys**: with both shift keys pressed and the right one released, the flag is 0
while the left one is held. -/
theorem keyboard_forgets_shift :
    ¬ ∀ (kbBuffer kbBufferRaw : ℕ → UInt8) (scancodes : List UInt8),
      AllStates keyboardStep FlagsOk (keyboardRunStart kbBuffer kbBufferRaw) scancodes := by
  intro h
  have hok : FlagsOk _ := (((h (fun _ => 0) (fun _ => 0) [0x2A, 0x36, 0xB6]).2 _ rfl).2 _ rfl).2 _ rfl
  have hflag := hok.shift.2 (by decide)
  exact absurd hflag (by decide)

end CometOS
