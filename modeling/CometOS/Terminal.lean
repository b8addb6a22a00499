import CometOS.Lib.Loop
import CometOS.Lib.Run
import CometOS.Lib.Word

/-!
# The text terminal (`kernel/kernel/ui/tty.c`)

`terminal_row`, `terminal_column`, `terminal_color` and the cells behind `terminal_buffer` are one
record.  Two logs are carried along for the proofs: the index of every store through
`terminal_buffer` and every byte written to an I/O port, the latest first.  A `char` is an `Int8`:
the target's `char` is signed, and `make_vgaentry` widens it with its sign.
-/

namespace CometOS

open Loop Word32

def vgaWidth : UInt32 := 80
def vgaHeight : UInt32 := 25

/-- The state behind the globals of `tty.c`. -/
structure Terminal where
  row : UInt32
  column : UInt32
  color : UInt8
  buffer : UInt32 → UInt16
  stores : List UInt32
  ports : List (UInt16 × UInt8)

def makeColor (fg bg : UInt8) : UInt8 := fg ||| bg <<< 4

def makeVgaentry (c : Int8) (color : UInt8) : UInt16 :=
  c.toInt16.toUInt16 ||| color.toUInt16 <<< 8

def colorLightGrey : UInt8 := 7
def colorBlack : UInt8 := 0

/-- `terminal_buffer[index] = entry`. -/
def Terminal.store (index : UInt32) (entry : UInt16) (t : Terminal) : Terminal :=
  { t with
    buffer := fun i => if i = index then entry else t.buffer i
    stores := index :: t.stores }

def outport8 (port : UInt16) (data : UInt8) (t : Terminal) : Terminal :=
  { t with ports := (port, data) :: t.ports }

/-- `terminal_initialize`, over whatever the video memory held. -/
def terminalInitialize (vgaMemory : UInt32 → UInt16) : Terminal :=
  let t : Terminal :=
    { row := 0, column := 0, color := makeColor colorLightGrey colorBlack, buffer := vgaMemory
      stores := [], ports := [] }
  forUp (fun y t =>
    forUp (fun x t =>
      t.store (UInt32.ofNat y * vgaWidth + UInt32.ofNat x) (makeVgaentry 32 t.color))
      0 vgaWidth.toNat t) 0 vgaHeight.toNat t

def terminalSetcolor (color : UInt8) (t : Terminal) : Terminal := { t with color := color }

def terminalPutentryat (c : Int8) (color : UInt8) (x y : UInt32) (t : Terminal) : Terminal :=
  t.store (y * vgaWidth + x) (makeVgaentry c color)

def terminalScroll (t : Terminal) : Terminal :=
  let t := forUp (fun y t =>
    forUp (fun x t =>
      t.store ((UInt32.ofNat y - 1) * vgaWidth + UInt32.ofNat x)
        (t.buffer (UInt32.ofNat y * vgaWidth + UInt32.ofNat x)))
      0 vgaWidth.toNat t) 1 (vgaHeight.toNat - 1) t
  forUp (fun x t =>
    t.store ((vgaHeight - 1) * vgaWidth + UInt32.ofNat x) (makeVgaentry 32 t.color))
    0 vgaWidth.toNat t

def terminalNewline (t : Terminal) : Terminal :=
  let t := { t with column := 0 }
  if t.row + 1 = vgaHeight then terminalScroll t else { t with row := t.row + 1 }

def terminalDrawcursor (row column : UInt32) (t : Terminal) : Terminal :=
  let cursorLocation : UInt16 := (row * 80 + column).toUInt16
  let t := outport8 0x3D4 14 t
  let t := outport8 0x3D5 (cursorLocation >>> 8).toUInt8 t
  let t := outport8 0x3D4 15 t
  outport8 0x3D5 cursorLocation.toUInt8 t

/-- `terminal_write` over a given `terminal_putchar`. -/
def terminalWriteWith (putchar : Int8 → Terminal → Terminal) (data : List Int8) (t : Terminal) :
    Terminal :=
  data.foldl (fun t c => putchar c t) t

/-- The `'\b'` branch of `terminal_putchar`, over the `terminal_putchar` that its
`terminal_writestring(" ")` comes back to. -/
def terminalBackspaceWith (self : Int8 → Terminal → Terminal) (t : Terminal) : Terminal :=
  let t := { t with column := t.column - 1 }
  let t := terminalWriteWith self [32] t
  let t := { t with column := t.column - 1 }
  terminalDrawcursor t.row t.column t

/-- The last branch of `terminal_putchar`, for every character without a meaning of its own. -/
def terminalPutprintable (c : Int8) (t : Terminal) : Terminal :=
  let t := if t.column = vgaWidth then terminalNewline t else t
  let t := terminalPutentryat c t.color t.column t.row t
  let t := { t with column := t.column + 1 }
  terminalDrawcursor t.row t.column t

/-- The body of `terminal_putchar`. -/
def terminalPutcharBody (self : Int8 → Terminal → Terminal) (c : Int8) (t : Terminal) : Terminal :=
  if c = 10 then terminalNewline t
  else if c = 13 then { t with column := 0 }
  else if c = 8 then terminalBackspaceWith self t
  else terminalPutprintable c t

/-- `terminal_putchar` with calls nested at most `depth` deep. -/
def terminalPutcharTo : ℕ → Int8 → Terminal → Terminal
  | 0 => fun _ t => t
  | depth + 1 => terminalPutcharBody (terminalPutcharTo depth)

/-- A backspace prints one space and a space calls nothing, so two levels are enough. -/
def terminalPutchar : Int8 → Terminal → Terminal := terminalPutcharTo 2

def terminalWrite (data : List Int8) (t : Terminal) : Terminal :=
  terminalWriteWith terminalPutchar data t

theorem terminalPutcharTo_space (depth : ℕ) (t : Terminal) :
    terminalPutcharTo (depth + 1) 32 t = terminalPutprintable 32 t := rfl

theorem terminalPutchar_space (t : Terminal) : terminalPutchar 32 t = terminalPutprintable 32 t :=
  rfl

/-- The backspace branch asks nothing of the inner call but what a space does. -/
theorem terminalBackspaceWith_congr {f g : Int8 → Terminal → Terminal} (h : ∀ t, f 32 t = g 32 t)
    (t : Terminal) : terminalBackspaceWith f t = terminalBackspaceWith g t := by
  have hw : terminalWriteWith f [32] = terminalWriteWith g [32] := funext fun t => h t
  unfold terminalBackspaceWith
  rw [hw]

/-- **The recursion of the source.**  `terminalPutchar` solves the equation that the C function,
which calls itself through `terminal_writestring`, is. -/
theorem terminalPutchar_eq (c : Int8) (t : Terminal) :
    terminalPutchar c t = terminalPutcharBody terminalPutchar c t := by
  show terminalPutcharBody (terminalPutcharTo 1) c t = _
  rw [terminalPutcharBody, terminalPutcharBody,
    terminalBackspaceWith_congr (g := terminalPutchar) fun t => terminalPutcharTo_space 0 t]

/-! ### The cursor invariant -/

/-- The cursor is on the screen, or just past the end of its line, and no store has left the
buffer. -/
structure TerminalInv (t : Terminal) : Prop where
  row_lt : t.row < vgaHeight
  column_le : t.column ≤ vgaWidth
  stores_lt : ∀ i ∈ t.stores, i < vgaWidth * vgaHeight

/-- What filling cells may do: the cursor and the colour stay, and new stores are in range. -/
structure StoresOnly (t t' : Terminal) : Prop where
  row_eq : t'.row = t.row
  column_eq : t'.column = t.column
  color_eq : t'.color = t.color
  stores_lt : (∀ i ∈ t.stores, i < vgaWidth * vgaHeight) → ∀ i ∈ t'.stores, i < vgaWidth * vgaHeight

theorem StoresOnly.refl (t : Terminal) : StoresOnly t t := ⟨rfl, rfl, rfl, id⟩

theorem StoresOnly.trans {t₁ t₂ t₃ : Terminal} (h : StoresOnly t₁ t₂) (h' : StoresOnly t₂ t₃) :
    StoresOnly t₁ t₃ :=
  ⟨h'.row_eq.trans h.row_eq, h'.column_eq.trans h.column_eq, h'.color_eq.trans h.color_eq,
    fun hs => h'.stores_lt (h.stores_lt hs)⟩

/-- A cell of the screen has an index inside the buffer. -/
theorem index_lt {x y : UInt32} (hx : x < vgaWidth) (hy : y < vgaHeight) :
    y * vgaWidth + x < vgaWidth * vgaHeight := by
  simp only [vgaWidth, vgaHeight, UInt32.lt_iff_toNat_lt, UInt32.reduceToNat] at *
  have hmul : (y * 80).toNat = y.toNat * 80 :=
    toNat_mul_of_lt (by simp only [UInt32.reduceToNat]; omega)
  rw [toNat_add_of_lt (by omega), hmul]
  show y.toNat * 80 + x.toNat < 2000
  omega

theorem storesOnly_store {index : UInt32} (entry : UInt16) (t : Terminal)
    (h : index < vgaWidth * vgaHeight) : StoresOnly t (t.store index entry) := by
  refine ⟨rfl, rfl, rfl, fun hs i hi => ?_⟩
  rcases List.mem_cons.1 hi with rfl | hi
  · exact h
  · exact hs i hi

theorem storesOnly_forUp {body : ℕ → Terminal → Terminal} (n lo : ℕ) (t : Terminal)
    (h : ∀ i t, lo ≤ i → i < lo + n → StoresOnly t (body i t)) :
    StoresOnly t (forUp body lo n t) :=
  forUp_inv (fun _ t' => StoresOnly t t') n lo t (StoresOnly.refl t)
    fun i t' hlo hhi ht' => ht'.trans (h i t' hlo hhi)

theorem ofNat_lt_vgaWidth {x : ℕ} (h : x < vgaWidth.toNat) : UInt32.ofNat x < vgaWidth := by
  have h80 : x < 80 := h
  rw [UInt32.lt_iff_toNat_lt, toNat_ofNat_of_lt (by omega)]
  exact h

theorem terminalScroll_storesOnly (t : Terminal) : StoresOnly t (terminalScroll t) := by
  have hrows : ∀ t : Terminal, StoresOnly t (forUp (fun y t =>
      forUp (fun x t => t.store ((UInt32.ofNat y - 1) * vgaWidth + UInt32.ofNat x)
        (t.buffer (UInt32.ofNat y * vgaWidth + UInt32.ofNat x))) 0 vgaWidth.toNat t)
      1 (vgaHeight.toNat - 1) t) := by
    intro t
    apply storesOnly_forUp
    intro y t hlo hhi
    have hy : UInt32.ofNat y - 1 < vgaHeight := by
      have h25 : y < 25 := hhi
      have hn : (UInt32.ofNat y).toNat = y := toNat_ofNat_of_lt (by omega)
      rw [UInt32.lt_iff_toNat_lt, toNat_sub_of_le (by rw [hn]; exact hlo), hn]
      exact lt_of_le_of_lt (Nat.sub_le y 1) h25
    exact storesOnly_forUp _ _ _ fun x t _ hx =>
      storesOnly_store _ t (index_lt (ofNat_lt_vgaWidth (by omega)) hy)
  refine (hrows t).trans (storesOnly_forUp _ _ _ fun x t _ hx => ?_)
  exact storesOnly_store _ t (index_lt (ofNat_lt_vgaWidth (by omega)) (by decide))

theorem terminalInitialize_storesOnly (vgaMemory : UInt32 → UInt16) : StoresOnly
    { row := 0, column := 0, color := makeColor colorLightGrey colorBlack, buffer := vgaMemory
      stores := [], ports := [] } (terminalInitialize vgaMemory) := by
  apply storesOnly_forUp
  intro y t _ hy
  have h25 : y < 25 := by
    have : vgaHeight.toNat = 25 := rfl
    omega
  refine storesOnly_forUp _ _ _ fun x t _ hx => storesOnly_store _ t (index_lt ?_ ?_)
  · exact ofNat_lt_vgaWidth (by omega)
  · rw [UInt32.lt_iff_toNat_lt, toNat_ofNat_of_lt (by omega)]
    exact h25

theorem terminalInitialize_column (vgaMemory : UInt32 → UInt16) :
    (terminalInitialize vgaMemory).column = 0 :=
  (terminalInitialize_storesOnly vgaMemory).column_eq

theorem terminalInitialize_inv (vgaMemory : UInt32 → UInt16) :
    TerminalInv (terminalInitialize vgaMemory) := by
  have h := terminalInitialize_storesOnly vgaMemory
  refine ⟨?_, ?_, h.stores_lt (by simp)⟩
  · rw [h.row_eq]
    exact (by decide : (0 : UInt32) < vgaHeight)
  · rw [h.column_eq]
    exact (by decide : (0 : UInt32) ≤ vgaWidth)

/-- A new line starts at column zero, on the next row or on the last. -/
theorem terminalNewline_inv {t : Terminal} (hrow : t.row < vgaHeight)
    (hst : ∀ i ∈ t.stores, i < vgaWidth * vgaHeight) :
    TerminalInv (terminalNewline t) ∧ (terminalNewline t).column = 0 := by
  unfold terminalNewline
  by_cases hlast : t.row + 1 = vgaHeight
  · have h := terminalScroll_storesOnly { t with column := 0 }
    simp only [hlast, if_true]
    refine ⟨⟨?_, ?_, h.stores_lt hst⟩, h.column_eq⟩
    · rw [h.row_eq]
      exact hrow
    · rw [h.column_eq]
      exact (by decide : (0 : UInt32) ≤ vgaWidth)
  · simp only [hlast, if_false]
    refine ⟨⟨?_, (by decide : (0 : UInt32) ≤ vgaWidth), hst⟩, trivial⟩
    simp only [vgaHeight, ← UInt32.toNat_inj, UInt32.lt_iff_toNat_lt, UInt32.toNat_add,
      UInt32.reduceToNat] at hrow hlast ⊢
    omega

/-- Where a printable character goes from a cursor at or before the end of its line. -/
theorem terminalPutprintable_inv {t : Terminal} (h : TerminalInv t) (c : Int8) :
    TerminalInv (terminalPutprintable c t) := by
  have hcell : ∀ u : Terminal, TerminalInv u → u.column < vgaWidth →
      TerminalInv (terminalDrawcursor (terminalPutentryat c u.color u.column u.row u).row
        ((terminalPutentryat c u.color u.column u.row u).column + 1)
        { terminalPutentryat c u.color u.column u.row u with
          column := (terminalPutentryat c u.color u.column u.row u).column + 1 }) := by
    intro u hu hcol
    refine ⟨hu.row_lt, ?_,
      (storesOnly_store (makeVgaentry c u.color) u (index_lt hcol hu.row_lt)).stores_lt hu.stores_lt⟩
    show u.column + 1 ≤ vgaWidth
    simp only [vgaWidth, UInt32.lt_iff_toNat_lt, UInt32.le_iff_toNat_le, UInt32.toNat_add,
      UInt32.reduceToNat] at hcol ⊢
    omega
  by_cases hwrap : t.column = vgaWidth
  · obtain ⟨hn, hcol⟩ := terminalNewline_inv h.row_lt h.stores_lt
    have := hcell (terminalNewline t) hn (by rw [hcol]; decide)
    simpa only [terminalPutprintable, if_pos hwrap] using this
  · have hle := h.column_le
    have hlt : t.column < vgaWidth := by
      simp only [vgaWidth, ← UInt32.toNat_inj, UInt32.lt_iff_toNat_lt, UInt32.le_iff_toNat_le,
        UInt32.reduceToNat] at hwrap hle ⊢
      omega
    simpa only [terminalPutprintable, if_neg hwrap] using hcell t h hlt

/-- Away from the right edge a printable character moves the cursor one column on. -/
theorem terminalPutprintable_cursor {t : Terminal} (h : t.column ≠ vgaWidth) (c : Int8) :
    (terminalPutprintable c t).row = t.row ∧ (terminalPutprintable c t).column = t.column + 1 := by
  rw [terminalPutprintable, if_neg h]
  exact ⟨rfl, rfl⟩

/-- What a backspace prints is a space over the cell to the left of the cursor. -/
theorem terminalBackspaceWith_eq (t : Terminal) (u : Terminal)
    (hu : terminalPutprintable 32 { t with column := t.column - 1 } = u) :
    terminalBackspaceWith terminalPutchar t =
      terminalDrawcursor u.row (u.column - 1) { u with column := u.column - 1 } := by
  have hw : terminalWriteWith terminalPutchar [32] = terminalPutprintable 32 :=
    funext terminalPutchar_space
  rw [terminalBackspaceWith, hw, hu]

/-- A backspace leaves the cursor one column back, even where there is no such column. -/
theorem terminalBackspace_cursor {t : Terminal} (h : t.column - 1 ≠ vgaWidth) :
    (terminalBackspaceWith terminalPutchar t).row = t.row ∧
      (terminalBackspaceWith terminalPutchar t).column = t.column - 1 := by
  obtain ⟨hrow, hcol⟩ :=
    terminalPutprintable_cursor (t := { t with column := t.column - 1 }) h 32
  generalize hu : terminalPutprintable 32 { t with column := t.column - 1 } = u at hrow hcol
  rw [terminalBackspaceWith_eq t u hu]
  refine ⟨hrow, ?_⟩
  show u.column - 1 = t.column - 1
  rw [hcol]
  show t.column - 1 + 1 - 1 = t.column - 1
  grind

theorem terminalBackspace_inv {t : Terminal} (h : TerminalInv t) (hcol : t.column ≠ 0) :
    TerminalInv (terminalBackspaceWith terminalPutchar t) := by
  have hpos := toNat_pos hcol
  have hle := h.column_le
  rw [UInt32.le_iff_toNat_le] at hle
  have hw : vgaWidth.toNat = 80 := rfl
  have hsub : (t.column - 1).toNat = t.column.toNat - 1 := toNat_sub_of_le hpos
  have hle' : t.column - 1 ≤ vgaWidth := by
    rw [UInt32.le_iff_toNat_le]
    omega
  have hne : t.column - 1 ≠ vgaWidth := by
    intro he
    rw [he] at hsub
    omega
  obtain ⟨hrow', hcol'⟩ := terminalBackspace_cursor hne
  have hin := terminalPutprintable_inv (t := { t with column := t.column - 1 })
    ⟨h.row_lt, hle', h.stores_lt⟩ 32
  generalize hu : terminalPutprintable 32 { t with column := t.column - 1 } = u at hin
  refine ⟨by rw [hrow']; exact h.row_lt, by rw [hcol']; exact hle', ?_⟩
  rw [terminalBackspaceWith_eq t u hu]
  exact hin.stores_lt

/-- **Where the cursor is lost.**  A backspace in column zero leaves the column at the largest
32-bit value. -/
theorem terminalBackspace_column_zero {t : Terminal} (h : t.column = 0) :
    ¬ TerminalInv (terminalBackspaceWith terminalPutchar t) := by
  intro hinv
  have hcol := (terminalBackspace_cursor (t := t) (by rw [h]; decide)).2
  have hle := hinv.column_le
  rw [hcol, h] at hle
  exact absurd hle (by decide)

/-! ### Runs -/

/-- The calls other code makes. -/
inductive TerminalCall
  | putchar (c : Int8)
  | write (data : List Int8)

/-- The `terminal_putchar` calls a call amounts to: the loop of `terminal_write` makes one for each
character. -/
def TerminalCall.chars : TerminalCall → List Int8
  | .putchar c => [c]
  | .write data => data

def putcharStep (t : Terminal) (c : Int8) : Option Terminal := some (terminalPutchar c t)

/-- One character, unless it is a backspace in column zero, keeps the invariant. -/
theorem putcharStep_inv {t t' : Terminal} {c : Int8} (h : TerminalInv t)
    (hc : c = 8 → t.column ≠ 0) (hs : putcharStep t c = some t') : TerminalInv t' := by
  obtain rfl : terminalPutchar c t = t' := Option.some.inj hs
  rw [terminalPutchar_eq, terminalPutcharBody]
  split
  · exact (terminalNewline_inv h.row_lt h.stores_lt).1
  · split
    · exact ⟨h.row_lt, (by decide : (0 : UInt32) ≤ vgaWidth), h.stores_lt⟩
    · split
      · rename_i hb
        exact terminalBackspace_inv h (hc hb)
      · exact terminalPutprintable_inv h c

theorem putcharStep_backspace {t t' : Terminal} {c : Int8} (hc : ¬ (c = 8 → t.column ≠ 0))
    (hs : putcharStep t c = some t') : ¬ TerminalInv t' := by
  obtain rfl : terminalPutchar c t = t' := Option.some.inj hs
  obtain ⟨rfl, hcol⟩ : c = 8 ∧ t.column = 0 := by simpa using hc
  rw [terminalPutchar_eq]
  exact terminalBackspace_column_zero hcol

/-- **The cursor invariant, exactly.**  From `terminal_initialize`, over any sequence of calls, the
invariant holds after every `terminal_putchar` if and only if no backspace comes in column zero. -/
theorem terminal_inv_iff (vgaMemory : UInt32 → UInt16) (calls : List TerminalCall) :
    Run.AllStates putcharStep TerminalInv (terminalInitialize vgaMemory)
        (calls.flatMap TerminalCall.chars) ↔
      Run.AllSteps putcharStep (fun t c => c = 8 → t.column ≠ 0) (terminalInitialize vgaMemory)
        (calls.flatMap TerminalCall.chars) :=
  Run.allStates_iff_allSteps (I := TerminalInv) (fun _ h => h)
    (fun _ _ _ h hc hs => putcharStep_inv h hc hs)
    (fun _ _ _ _ hc hs => putcharStep_backspace hc hs) _ _ (terminalInitialize_inv vgaMemory)

/-- A backspace as the first character ever printed breaks the invariant. -/
theorem terminal_inv_fails_on_backspace :
    ¬ Run.AllStates putcharStep TerminalInv (terminalInitialize fun _ => 0)
      ([TerminalCall.putchar 8].flatMap TerminalCall.chars) := by
  intro h
  have hcol : (terminalInitialize fun _ => 0).column = 0 := terminalInitialize_column _
  exact putcharStep_backspace (c := 8) (by simp [hcol]) rfl
    (Run.AllStates.of_run [8] [] h rfl)

end CometOS
