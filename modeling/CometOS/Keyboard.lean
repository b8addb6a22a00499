import CometOS.Lib.Run
import CometOS.Lib.Word

/-!
# The keyboard handler (`kernel/kernel/kb.c`)

The globals of `kb.c` are one record.  The two buffers are arrays of `KB_MAXBUFFER` cells, but
nothing stops a store behind their ends, so each store's index is put on record; so are the bytes
written to I/O ports and what is done with a key, the latest first.

A key press that is no shift is stored at the cursor of the other buffer, which then counts it as a
scancode of its own.
-/

namespace CometOS

open Run

def kbMaxbuffer : ℕ := 255

/-- The table's 90 entries; the rest of its 128 are 0. -/
def kbdusEntries : List UInt8 :=
  [0, 27, 49, 50, 51, 52, 53, 54, 55, 56,
    57, 48, 45, 61, 8, 9, 113, 119, 101, 114,
    116, 121, 117, 105, 111, 112, 91, 93, 10, 0,
    97, 115, 100, 102, 103, 104, 106, 107, 108, 59,
    39, 96, 0, 92, 122, 120, 99, 118, 98, 110,
    109, 44, 46, 47, 0, 42, 0, 32, 0, 0,
    0, 0, 0, 0, 0, 0, 0, 0, 0, 0,
    0, 0, 0, 0, 45, 0, 0, 0, 43, 0,
    0, 0, 0, 0, 0, 0, 0, 0, 0, 0]

/-- `kbdus[scancode]`. -/
def kbdus (scancode : UInt8) : UInt8 := kbdusEntries.getD scancode.toNat 0

/-- What `keyboard_handler` does with a stored key. -/
inductive KeyAction
  | pageFault
  | heapAlloc (size : UInt32)
  | kmalloc (size : UInt32)
  | terminalPutchar (c : UInt8)
  deriving DecidableEq

/-- The state behind the globals of `kb.c`. -/
structure Keyboard where
  kbBuffer : ℕ → UInt8
  kbBufferRaw : ℕ → UInt8
  kbCount : ℕ
  kbCountRaw : ℕ
  kbLtmp : UInt16
  kbShiftFlag : ℤ
  kbCapsFlag : ℤ
  waitSet : ℤ
  stores : List ℕ
  ports : List (UInt16 × UInt8)
  actions : List KeyAction

/-- The first part of the handler: the scancode goes to the raw buffer. -/
def kbStoreRaw (scancode : UInt8) (s : Keyboard) : Keyboard :=
  if s.kbCountRaw < kbMaxbuffer then
    { s with
      kbBufferRaw := Function.update s.kbBufferRaw s.kbCountRaw scancode
      kbCountRaw := s.kbCountRaw + 1
      stores := s.kbCountRaw :: s.stores }
  else
    { s with
      kbBufferRaw := Function.update s.kbBufferRaw 0 scancode
      kbCountRaw := 0
      stores := 0 :: s.stores }

/-- A lock key's LED. -/
def kbLed (led : UInt16) (s : Keyboard) : Keyboard :=
  { s with
    kbLtmp := s.kbLtmp ||| led
    ports := (0x60, (s.kbLtmp ||| led).toUInt8) :: (0x60, 0xED) :: s.ports }

/-- The second part: the LEDs. -/
def kbSetLeds (scancode : UInt8) (s : Keyboard) : Keyboard :=
  if scancode = 0x3A then
    let s := kbLed 4 s
    { s with kbCapsFlag := if s.kbCapsFlag ≠ 0 then 0 else 1 }
  else if scancode = 0x45 then kbLed 2 s
  else if scancode = 0x46 then kbLed 1 s
  else s

/-- A key goes to the translated buffer.  The cursor that is tested is not the one that is used. -/
def kbStore (scancode : UInt8) (s : Keyboard) : Keyboard :=
  if s.kbCount < kbMaxbuffer then
    { s with
      kbBuffer := Function.update s.kbBuffer s.kbCountRaw (kbdus scancode)
      kbCountRaw := s.kbCountRaw + 1
      stores := s.kbCountRaw :: s.stores }
  else
    { s with
      kbBuffer := Function.update s.kbBuffer 0 (kbdus scancode)
      kbCount := 0
      stores := 0 :: s.stores }

def keyAction (scancode : UInt8) : KeyAction :=
  if kbdus scancode = 49 then .pageFault
  else if kbdus scancode = 50 then .heapAlloc 0x1000
  else if kbdus scancode = 51 then .kmalloc 4
  else .terminalPutchar (kbdus scancode)

/-- A press, not a release. -/
def IsPress (scancode : UInt8) : Prop := scancode &&& 0x80 = 0

instance (scancode : UInt8) : Decidable (IsPress scancode) := inferInstanceAs (Decidable (_ = _))

/-- Left or right shift. -/
def IsShift (scancode : UInt8) : Prop := scancode = 42 ∨ scancode = 54

instance (scancode : UInt8) : Decidable (IsShift scancode) := inferInstanceAs (Decidable (_ ∨ _))

/-- `keyboard_handler`, on the scancode that it reads from the port. -/
def keyboardHandler (scancode : UInt8) (s : Keyboard) : Keyboard :=
  let s := kbSetLeds scancode (kbStoreRaw scancode { s with waitSet := 0 })
  if ¬ IsPress scancode then
    if IsShift (scancode - 0x80) then { s with kbShiftFlag := 0 } else s
  else if IsShift scancode then { s with kbShiftFlag := 1 }
  else
    let s := kbStore scancode s
    { s with actions := keyAction scancode :: s.actions }

/-- The globals at boot, over whatever the buffers hold. -/
def keyboardStart (kbBuffer kbBufferRaw : ℕ → UInt8) : Keyboard where
  kbBuffer := kbBuffer
  kbBufferRaw := kbBufferRaw
  kbCount := 0
  kbCountRaw := 0
  kbLtmp := 0
  kbShiftFlag := 0
  kbCapsFlag := 0
  waitSet := 0
  stores := []
  ports := []
  actions := []

/-! ### Runs -/

/-- The keyboard and the scancodes that have arrived. -/
structure KeyboardRun where
  keyboard : Keyboard
  received : List UInt8

def keyboardStep (r : KeyboardRun) (scancode : UInt8) : Option KeyboardRun :=
  some ⟨keyboardHandler scancode r.keyboard, r.received ++ [scancode]⟩

/-- A key that is to be stored. -/
def IsKey (scancode : UInt8) : Bool := decide (IsPress scancode ∧ ¬ IsShift scancode)

/-- The first `count` cells of a buffer. -/
def cells (buffer : ℕ → UInt8) (count : ℕ) : List UInt8 := (List.range count).map buffer

/-- No store has gone past the end of a buffer, and until as many scancodes as there are cells have
arrived, the buffers hold the scancodes and the keys, in order. -/
structure KeyboardOk (r : KeyboardRun) : Prop where
  stores_lt : ∀ i ∈ r.keyboard.stores, i < kbMaxbuffer
  raw : r.received.length < kbMaxbuffer →
    cells r.keyboard.kbBufferRaw r.keyboard.kbCountRaw = r.received
  translated : r.received.length < kbMaxbuffer →
    cells r.keyboard.kbBuffer r.keyboard.kbCount = (r.received.filter IsKey).map kbdus

/-- No key arrives while the buffers are to hold what has arrived, and later none arrives just when
the raw buffer has one cell left. -/
def NoKeyInTheWay (r : KeyboardRun) (scancode : UInt8) : Prop :=
  IsKey scancode = true →
    kbMaxbuffer ≤ r.received.length + 1 ∧ r.keyboard.kbCountRaw + 1 ≠ kbMaxbuffer

/-! ### What the handler does to the buffers -/

section Handler

variable {s : Keyboard} {scancode : UInt8}

theorem cells_succ (buffer : ℕ → UInt8) (n : ℕ) (x : UInt8) :
    cells (Function.update buffer n x) (n + 1) = cells buffer n ++ [x] := by
  rw [cells, List.range_succ, List.map_append, List.map_singleton, Function.update_self, cells]
  congr 1
  refine List.map_congr_left fun i hi => Function.update_of_ne ?_ x buffer
  have hlt := List.mem_range.1 hi
  omega

theorem cells_length (buffer : ℕ → UInt8) (n : ℕ) : (cells buffer n).length = n := by
  rw [cells, List.length_map, List.length_range]

/-- The buffers, their cursors and the stores made. -/
def Keyboard.buffers (s : Keyboard) : (ℕ → UInt8) × (ℕ → UInt8) × ℕ × ℕ × List ℕ :=
  (s.kbBuffer, s.kbBufferRaw, s.kbCount, s.kbCountRaw, s.stores)

theorem kbSetLeds_buffers (scancode : UInt8) (s : Keyboard) :
    (kbSetLeds scancode s).buffers = s.buffers := by
  unfold kbSetLeds
  split
  · rfl
  · split
    · rfl
    · split
      · rfl
      · rfl

/-- The buffers, one by one. -/
theorem Keyboard.buffers_eq_iff {buffer raw : ℕ → UInt8} {m n : ℕ} {stores : List ℕ} :
    s.buffers = (buffer, raw, m, n, stores) ↔ s.kbBuffer = buffer ∧ s.kbBufferRaw = raw ∧
      s.kbCount = m ∧ s.kbCountRaw = n ∧ s.stores = stores := by
  simp only [Keyboard.buffers, Prod.mk.injEq]

theorem kbStore_congr {t : Keyboard} (h : s.buffers = t.buffers) :
    (kbStore scancode s).buffers = (kbStore scancode t).buffers := by
  obtain ⟨h1, h2, h3, h4, h5⟩ := Keyboard.buffers_eq_iff.1 h
  unfold kbStore Keyboard.buffers
  rw [h3]
  split
  · simp only [h1, h2, h4, h5]
  · simp only [h1, h2, h4, h5]

theorem kbStore_buffers {buffer raw : ℕ → UInt8} {n : ℕ} {stores : List ℕ}
    (h : s.buffers = (buffer, raw, 0, n, stores)) :
    (kbStore scancode s).buffers =
      (Function.update buffer n (kbdus scancode), raw, 0, n + 1, n :: stores) := by
  obtain ⟨rfl, rfl, hcount, rfl, rfl⟩ := Keyboard.buffers_eq_iff.1 h
  have hlt : s.kbCount < kbMaxbuffer := by
    rw [hcount]
    decide
  unfold kbStore
  rw [if_pos hlt]
  exact Keyboard.buffers_eq_iff.2 ⟨rfl, rfl, hcount, rfl, rfl⟩

/-- **What the handler does to the buffers**: the scancode is stored, and then the key if it is one. -/
theorem keyboardHandler_buffers (scancode : UInt8) (s : Keyboard) :
    (keyboardHandler scancode s).buffers =
      if IsKey scancode = true then (kbStore scancode (kbStoreRaw scancode s)).buffers
      else (kbStoreRaw scancode s).buffers := by
  have hraw : (kbSetLeds scancode (kbStoreRaw scancode { s with waitSet := 0 })).buffers =
      (kbStoreRaw scancode s).buffers := by
    rw [kbSetLeds_buffers]
    unfold kbStoreRaw
    simp only
    split
    · rfl
    · rfl
  unfold keyboardHandler
  by_cases hpress : IsPress scancode
  · by_cases hshift : IsShift scancode
    · have hkey : ¬ IsKey scancode = true := fun h => (of_decide_eq_true h).2 hshift
      simp only [hpress, hshift, not_true_eq_false, if_false, if_true]
      rw [if_neg hkey]
      exact hraw
    · have hkey : IsKey scancode = true := decide_eq_true ⟨hpress, hshift⟩
      simp only [hpress, hshift, not_true_eq_false, if_false]
      rw [if_pos hkey]
      exact kbStore_congr hraw
  · have hkey : ¬ IsKey scancode = true := fun h => hpress (of_decide_eq_true h).1
    simp only [hpress, not_false_eq_true, if_true]
    rw [if_neg hkey]
    split
    · exact hraw
    · exact hraw

end Handler

/-! ### Steps and runs -/

/-- What a run keeps while no key is in the way: the other cursor has never moved. -/
structure KeyboardInv (r : KeyboardRun) : Prop extends KeyboardOk r where
  count_eq : r.keyboard.kbCount = 0
  raw_le : r.keyboard.kbCountRaw ≤ kbMaxbuffer

theorem keyboardInv_of_buffers {s : Keyboard} {received : List UInt8} {buffer raw : ℕ → UInt8} {n : ℕ}
    {stores : List ℕ} (hs : s.buffers = (buffer, raw, 0, n, stores)) (hn : n ≤ kbMaxbuffer)
    (hstores : ∀ i ∈ stores, i < kbMaxbuffer)
    (hraw : received.length < kbMaxbuffer → cells raw n = received)
    (hkeys : received.length < kbMaxbuffer → received.filter IsKey = []) :
    KeyboardInv ⟨s, received⟩ := by
  obtain ⟨rfl, rfl, hcount, rfl, rfl⟩ := Keyboard.buffers_eq_iff.1 hs
  refine ⟨⟨hstores, hraw, fun hlt => ?_⟩, hcount, hn⟩
  rw [hcount, hkeys hlt]
  rfl

section Steps

variable {r r' : KeyboardRun} {scancode : UInt8}

/-- While there is room for all that has arrived no key has. -/
theorem KeyboardInv.no_keys (h : KeyboardInv r) (hlt : r.received.length < kbMaxbuffer) :
    r.received.filter IsKey = [] := by
  have hkeys := h.translated hlt
  rw [h.count_eq] at hkeys
  exact List.map_eq_nil_iff.1 hkeys.symm

/-- And the raw cursor has counted the scancodes. -/
theorem KeyboardInv.raw_eq (h : KeyboardInv r) (hlt : r.received.length < kbMaxbuffer) :
    r.keyboard.kbCountRaw = r.received.length := by
  rw [← h.raw hlt, cells_length]

/-- The scancode goes to the cell after the last, or if the raw buffer is full to the first. -/
theorem KeyboardInv.store_raw (h : KeyboardInv r) :
    (r.keyboard.kbCountRaw < kbMaxbuffer ∧ (kbStoreRaw scancode r.keyboard).buffers =
      (r.keyboard.kbBuffer,
        Function.update r.keyboard.kbBufferRaw r.keyboard.kbCountRaw scancode, 0,
        r.keyboard.kbCountRaw + 1, r.keyboard.kbCountRaw :: r.keyboard.stores)) ∨
    (r.keyboard.kbCountRaw = kbMaxbuffer ∧ (kbStoreRaw scancode r.keyboard).buffers =
      (r.keyboard.kbBuffer, Function.update r.keyboard.kbBufferRaw 0 scancode, 0, 0,
        0 :: r.keyboard.stores)) := by
  unfold kbStoreRaw Keyboard.buffers
  rcases Nat.lt_or_eq_of_le h.raw_le with hlt | heq
  · left
    refine ⟨hlt, ?_⟩
    rw [if_pos hlt]
    simp only [h.count_eq]
  · right
    refine ⟨heq, ?_⟩
    rw [if_neg (by omega)]
    simp only [h.count_eq]

/-- **A scancode that is no key** keeps the buffers as they should be. -/
theorem KeyboardInv.step_other (h : KeyboardInv r) (hkey : ¬ IsKey scancode = true)
    (hstep : keyboardStep r scancode = some r') : KeyboardInv r' := by
  obtain rfl := Option.some.inj hstep
  have hbuffers := keyboardHandler_buffers scancode r.keyboard
  rw [if_neg hkey] at hbuffers
  have hkeys : (r.received ++ [scancode]).length < kbMaxbuffer →
      (r.received ++ [scancode]).filter IsKey = [] := by
    intro hlt
    rw [List.length_append, List.length_singleton] at hlt
    rw [List.filter_append, h.no_keys (by omega), List.nil_append, List.filter_singleton,
      Bool.cond_eq_ite, if_neg hkey]
  rcases h.store_raw with ⟨hlt, hraw⟩ | ⟨heq, hraw⟩
  · rw [hraw] at hbuffers
    refine keyboardInv_of_buffers hbuffers hlt ?_ ?_ hkeys
    · intro i hi
      rcases List.mem_cons.1 hi with rfl | hi
      · exact hlt
      · exact h.stores_lt i hi
    · intro hlen
      rw [List.length_append, List.length_singleton] at hlen
      rw [cells_succ, h.raw (by omega)]
  · rw [hraw] at hbuffers
    refine keyboardInv_of_buffers hbuffers (Nat.zero_le _) ?_ ?_ hkeys
    · intro i hi
      rcases List.mem_cons.1 hi with rfl | hi
      · decide
      · exact h.stores_lt i hi
    · intro hlen
      rw [List.length_append, List.length_singleton] at hlen
      have hcount := h.raw_eq (by omega)
      omega

/-- The stores for a key: one in each buffer, or two to the first cells. -/
theorem KeyboardInv.step_key (h : KeyboardInv r) (hkey : IsKey scancode = true)
    (hstep : keyboardStep r scancode = some r') :
    r'.received = r.received ++ [scancode] ∧ ∃ buffer raw,
      (r.keyboard.kbCountRaw < kbMaxbuffer ∧ r'.keyboard.buffers = (buffer, raw, 0,
        r.keyboard.kbCountRaw + 2,
        (r.keyboard.kbCountRaw + 1) :: r.keyboard.kbCountRaw :: r.keyboard.stores)) ∨
      (r.keyboard.kbCountRaw = kbMaxbuffer ∧
        r'.keyboard.buffers = (buffer, raw, 0, 1, 0 :: 0 :: r.keyboard.stores)) := by
  obtain rfl := Option.some.inj hstep
  have hbuffers := keyboardHandler_buffers scancode r.keyboard
  rw [if_pos hkey] at hbuffers
  refine ⟨rfl, ?_⟩
  rcases h.store_raw with ⟨hlt, hraw⟩ | ⟨heq, hraw⟩
  · exact ⟨_, _, Or.inl ⟨hlt, hbuffers.trans (kbStore_buffers hraw)⟩⟩
  · exact ⟨_, _, Or.inr ⟨heq, hbuffers.trans (kbStore_buffers hraw)⟩⟩

theorem KeyboardInv.step (h : KeyboardInv r) (hc : NoKeyInTheWay r scancode)
    (hstep : keyboardStep r scancode = some r') : KeyboardInv r' := by
  by_cases hkey : IsKey scancode = true
  · obtain ⟨hlen, hlast⟩ := hc hkey
    obtain ⟨hreceived, buffer, raw, hcases⟩ := h.step_key hkey hstep
    have hfull : ¬ r'.received.length < kbMaxbuffer := by
      rw [hreceived, List.length_append, List.length_singleton]
      omega
    rcases hcases with ⟨hlt, hbuffers⟩ | ⟨_, hbuffers⟩
    · refine keyboardInv_of_buffers hbuffers (by omega) (fun i hi => ?_)
        (fun hlt => absurd hlt hfull) fun hlt => absurd hlt hfull
      rcases List.mem_cons.1 hi with rfl | hi
      · omega
      · rcases List.mem_cons.1 hi with rfl | hi
        · exact hlt
        · exact h.stores_lt i hi
    · refine keyboardInv_of_buffers hbuffers (by decide) (fun i hi => ?_)
        (fun hlt => absurd hlt hfull) fun hlt => absurd hlt hfull
      rcases List.mem_cons.1 hi with rfl | hi
      · decide
      · rcases List.mem_cons.1 hi with rfl | hi
        · decide
        · exact h.stores_lt i hi
  · exact h.step_other hkey hstep

/-- **A key in the way** is lost from the translated buffer, or stored behind its end. -/
theorem KeyboardInv.not_ok (h : KeyboardInv r) (hc : ¬ NoKeyInTheWay r scancode)
    (hstep : keyboardStep r scancode = some r') : ¬ KeyboardOk r' := by
  obtain ⟨hkey, hway⟩ := Classical.not_imp.1 hc
  obtain ⟨hreceived, buffer, raw, hcases⟩ := h.step_key hkey hstep
  intro hok
  by_cases hlen : kbMaxbuffer ≤ r.received.length + 1
  · have hlast : r.keyboard.kbCountRaw + 1 = kbMaxbuffer := by
      by_contra hne
      exact hway ⟨hlen, hne⟩
    rcases hcases with ⟨_, hbuffers⟩ | ⟨heq, _⟩
    · obtain ⟨_, _, _, _, hstores⟩ := Keyboard.buffers_eq_iff.1 hbuffers
      have hlt := hok.stores_lt (r.keyboard.kbCountRaw + 1) (by
        rw [hstores]
        exact List.mem_cons_self)
      omega
    · omega
  · have hcount : r'.keyboard.kbCount = 0 := by
      rcases hcases with ⟨_, hbuffers⟩ | ⟨_, hbuffers⟩
      · exact (Keyboard.buffers_eq_iff.1 hbuffers).2.2.1
      · exact (Keyboard.buffers_eq_iff.1 hbuffers).2.2.1
    have hkeys := hok.translated (by
      rw [hreceived, List.length_append, List.length_singleton]
      omega)
    rw [hcount, hreceived, List.filter_append, List.filter_singleton, hkey] at hkeys
    have hlength := congrArg List.length hkeys
    rw [cells_length, List.length_map, List.length_append] at hlength
    simp at hlength

end Steps

/-- A run that starts with nothing received. -/
def keyboardRunStart (kbBuffer kbBufferRaw : ℕ → UInt8) : KeyboardRun :=
  ⟨keyboardStart kbBuffer kbBufferRaw, []⟩

theorem keyboardInv_start (kbBuffer kbBufferRaw : ℕ → UInt8) :
    KeyboardInv (keyboardRunStart kbBuffer kbBufferRaw) :=
  keyboardInv_of_buffers rfl (Nat.zero_le _) (fun i hi => by cases hi) (fun _ => rfl) fun _ => rfl

/-- **The keyboard buffers.**  From boot on, whatever the buffers held, all stores are inside and the
buffers hold what has arrived exactly as long as no key is in the way. -/
theorem keyboard_ok_iff (kbBuffer kbBufferRaw : ℕ → UInt8) (scancodes : List UInt8) :
    AllStates keyboardStep KeyboardOk (keyboardRunStart kbBuffer kbBufferRaw) scancodes ↔
      AllSteps keyboardStep NoKeyInTheWay (keyboardRunStart kbBuffer kbBufferRaw) scancodes :=
  allStates_iff_allSteps (fun _ h => h.toKeyboardOk) (fun _ _ _ h => h.step)
    (fun _ _ _ h => h.not_ok) scancodes _ (keyboardInv_start kbBuffer kbBufferRaw)

/-- **The first key pressed is lost**: after an `a` both cursors are wrong, and nothing is in the
translated buffer up to its own. -/
theorem keyboard_loses_first_key :
    ¬ ∀ (kbBuffer kbBufferRaw : ℕ → UInt8) (scancodes : List UInt8),
      AllStates keyboardStep KeyboardOk (keyboardRunStart kbBuffer kbBufferRaw) scancodes := by
  intro h
  have hok := ((h (fun _ => 0) (fun _ => 0) [0x1E]).2 _ rfl : KeyboardOk _)
  have hkeys := hok.translated (by decide)
  revert hkeys
  decide

end CometOS
