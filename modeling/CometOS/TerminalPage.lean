import CometOS.Lib.TextPage
import CometOS.Terminal

/-!
# The screen is a window on an unbounded page

The reference for what `terminal_putchar` prints is a page without end; the 25 rows of the screen
are its last 25 lines.  `Shows` relates the two, and every character but a backspace keeps it.
-/

namespace CometOS

open Loop Word32

/-- The index of a cell, as the source computes it. -/
def cellIndex (y x : ℕ) : UInt32 := UInt32.ofNat y * vgaWidth + UInt32.ofNat x

/-- What printing a character does to the page. -/
def pagePutchar (c : Int8) (p : TextPage UInt8) : TextPage UInt8 :=
  if c = 10 then p.newline
  else if c = 13 then p.carriageReturn
  else p.put 80 c.toUInt8

/-- The screen is the last 25 lines of the page, and the cursors are at the same place. -/
structure Shows (t : Terminal) (p : TextPage UInt8) : Prop where
  column : t.column.toNat = p.col
  row : t.row.toNat = p.row 25
  cells : ∀ r x, r < 25 → x < 80 → (t.buffer (cellIndex r x)).toUInt8 = p.window 25 r x
  col_le : p.col ≤ 80
  blank : p.BlankBelow 32

section Screen

variable {t t' : Terminal} {p : TextPage UInt8} {y x : ℕ}

/-! ### Cells -/

theorem cellIndex_eq (hy : y < 25) (hx : x < 80) : (cellIndex y x).toNat = y * 80 + x := by
  have hw : vgaWidth.toNat = 80 := rfl
  have hyn : (UInt32.ofNat y).toNat = y := toNat_ofNat_of_lt (by omega)
  have hxn : (UInt32.ofNat x).toNat = x := toNat_ofNat_of_lt (by omega)
  have hmul : (UInt32.ofNat y * vgaWidth).toNat = y * 80 := by
    rw [toNat_mul_of_lt (by rw [hyn, hw]; omega), hyn, hw]
  rw [cellIndex, toNat_add_of_lt (by omega), hmul, hxn]

/-- Different cells have different indices. -/
theorem cellIndex_inj {y' x' : ℕ} (hy : y < 25) (hx : x < 80) (hy' : y' < 25) (hx' : x' < 80) :
    cellIndex y x = cellIndex y' x' ↔ y = y' ∧ x = x' := by
  constructor
  · intro h
    have := congrArg UInt32.toNat h
    rw [cellIndex_eq hy hx, cellIndex_eq hy' hx'] at this
    omega
  · rintro ⟨rfl, rfl⟩
    rfl

/-- The low byte of an entry is the character. -/
theorem makeVgaentry_low (c : Int8) (color : UInt8) : (makeVgaentry c color).toUInt8 = c.toUInt8 := by
  apply UInt8.toBitVec_inj.1
  have hc : c.toInt16.toUInt16.toBitVec = c.toBitVec.signExtend 16 := rfl
  have hs : (color.toUInt16 <<< 8).toBitVec = color.toBitVec.zeroExtend 16 <<< 8 := rfl
  have hsum : (makeVgaentry c color).toUInt8.toBitVec =
      (c.toInt16.toUInt16.toBitVec ||| (color.toUInt16 <<< 8).toBitVec).setWidth 8 := rfl
  rw [hsum, hc, hs]
  ext i hi
  have h16 : i < 16 := by omega
  simp [hi, h16, BitVec.getElem_signExtend]

/-- A store into a cell of the screen, seen at a cell of the screen. -/
theorem store_buffer {r c : ℕ} (entry : UInt16) (hy : y < 25) (hx : x < 80) (hr : r < 25)
    (hc : c < 80) : (t.store (cellIndex y x) entry).buffer (cellIndex r c) =
      if r = y ∧ c = x then entry else t.buffer (cellIndex r c) := by
  show (if cellIndex r c = cellIndex y x then entry else t.buffer (cellIndex r c)) = _
  simp only [cellIndex_inj hr hc hy hx]

/-- The loop over the columns of row `y`. -/
def fillRow (y : ℕ) (value : ℕ → Terminal → UInt16) (t : Terminal) : Terminal :=
  forUp (fun x t => t.store (cellIndex y x) (value x t)) 0 80 t

/-- **Filling a row.**  The values are read on the way, from cells that the row's own stores do not
change. -/
theorem fillRow_spec (hy : y < 25) (value : ℕ → Terminal → UInt16) (v : ℕ → UInt16)
    (hvalue : ∀ x t', x < 80 → t'.color = t.color →
      (∀ r c, r < 25 → c < 80 → r ≠ y → t'.buffer (cellIndex r c) = t.buffer (cellIndex r c)) →
      value x t' = v x) :
    (fillRow y value t).color = t.color ∧ ∀ r c, r < 25 → c < 80 →
      (fillRow y value t).buffer (cellIndex r c) =
        if r = y then v c else t.buffer (cellIndex r c) := by
  have hloop := @forUp_inv Terminal
    (fun n t' => t'.color = t.color ∧ ∀ r c, r < 25 → c < 80 → t'.buffer (cellIndex r c) =
      if r = y ∧ c < n then v c else t.buffer (cellIndex r c))
    (fun x t => t.store (cellIndex y x) (value x t)) 80 0 t
    ⟨rfl, fun r c _ _ => by rw [if_neg (by omega)]⟩
    (fun x t' _ hx h => by
      obtain ⟨hcolor, hcells⟩ := h
      refine ⟨hcolor, fun r c hr hc => ?_⟩
      have hv : value x t' = v x := hvalue x t' (by omega) hcolor fun r c hr hc hne => by
        rw [hcells r c hr hc, if_neg fun h => hne h.1]
      rw [store_buffer _ hy (by omega) hr hc, hv, hcells r c hr hc]
      by_cases hxc : r = y ∧ c = x
      · rw [if_pos hxc, if_pos (by omega), hxc.2]
      · rw [if_neg hxc]
        by_cases hdone : r = y ∧ c < x
        · rw [if_pos hdone, if_pos (by omega)]
        · rw [if_neg hdone, if_neg (by omega)])
  obtain ⟨hcolor, hcells⟩ := hloop
  refine ⟨hcolor, fun r c hr hc => ?_⟩
  rw [fillRow, hcells r c hr hc]
  by_cases hry : r = y
  · rw [if_pos ⟨hry, by omega⟩, if_pos hry]
  · rw [if_neg fun h => hry h.1, if_neg hry]

/-! ### Initialization and scrolling -/

/-- The terminal before its cells are filled. -/
def terminalBlank (vgaMemory : UInt32 → UInt16) : Terminal :=
  { row := 0, column := 0, color := makeColor colorLightGrey colorBlack, buffer := vgaMemory
    stores := [], ports := [] }

theorem terminalInitialize_eq (vgaMemory : UInt32 → UInt16) : terminalInitialize vgaMemory =
    forUp (fun y => fillRow y fun _ t => makeVgaentry 32 t.color) 0 25 (terminalBlank vgaMemory) :=
  rfl

/-- **`terminal_initialize`** leaves spaces in every cell. -/
theorem terminalInitialize_buffer (vgaMemory : UInt32 → UInt16) {r c : ℕ} (hr : r < 25)
    (hc : c < 80) : (terminalInitialize vgaMemory).buffer (cellIndex r c) =
      makeVgaentry 32 (makeColor colorLightGrey colorBlack) := by
  obtain ⟨_, hcells⟩ := @forUp_inv Terminal
    (fun n t' => t'.color = makeColor colorLightGrey colorBlack ∧ ∀ r c, r < 25 → c < 80 → r < n →
      t'.buffer (cellIndex r c) = makeVgaentry 32 (makeColor colorLightGrey colorBlack))
    (fun y => fillRow y fun _ t => makeVgaentry 32 t.color) 25 0 (terminalBlank vgaMemory)
    ⟨rfl, fun r c _ _ h => absurd h (by omega)⟩
    (fun y t' _ hy h => by
      obtain ⟨hcolor, hcells⟩ := h
      obtain ⟨hcolor', hcells'⟩ := fillRow_spec (by omega) (fun _ t => makeVgaentry 32 t.color)
        (fun _ => makeVgaentry 32 t'.color) fun x t'' _ hcolor _ => by rw [hcolor]
      refine ⟨hcolor'.trans hcolor, fun r c hr hc hlt => ?_⟩
      rw [hcells' r c hr hc]
      by_cases hry : r = y
      · rw [if_pos hry, hcolor]
      · rw [if_neg hry]
        exact hcells r c hr hc (by omega))
  rw [terminalInitialize_eq]
  exact hcells r c hr hc (by omega)

theorem terminalScroll_eq : terminalScroll t = fillRow 24 (fun _ t => makeVgaentry 32 t.color)
    (forUp (fun y t => forUp (fun x t => t.store ((UInt32.ofNat y - 1) * vgaWidth + UInt32.ofNat x)
      (t.buffer (cellIndex y x))) 0 80 t) 1 24 t) :=
  rfl

/-- Copying row `y` to the row above is filling that row. -/
theorem copyRow_eq (y : ℕ) : forUp (fun x t =>
      t.store ((UInt32.ofNat (y + 1) - 1) * vgaWidth + UInt32.ofNat x)
        (t.buffer (cellIndex (y + 1) x))) 0 80 t =
    fillRow y (fun x t => t.buffer (cellIndex (y + 1) x)) t := by
  have hpred : UInt32.ofNat (y + 1) - 1 = UInt32.ofNat y := by
    rw [UInt32.ofNat_add]
    exact UInt32.add_sub_cancel _ _
  rw [hpred]
  rfl

/-- **`terminal_scroll`** moves every row up by one and leaves the last one blank. -/
theorem terminalScroll_buffer {r c : ℕ} (hr : r < 25) (hc : c < 80) :
    (terminalScroll t).buffer (cellIndex r c) =
      if r = 24 then makeVgaentry 32 t.color else t.buffer (cellIndex (r + 1) c) := by
  obtain ⟨hcolor, hcells⟩ := @forUp_inv Terminal
    (fun n t' => t'.color = t.color ∧ ∀ r c, r < 25 → c < 80 → t'.buffer (cellIndex r c) =
      if r + 1 < n then t.buffer (cellIndex (r + 1) c) else t.buffer (cellIndex r c))
    (fun y t => forUp (fun x t => t.store ((UInt32.ofNat y - 1) * vgaWidth + UInt32.ofNat x)
      (t.buffer (cellIndex y x))) 0 80 t) 24 1 t
    ⟨rfl, fun r c _ _ => by rw [if_neg (by omega)]⟩
    (fun y t' hy hy' h => by
      obtain ⟨hcolor, hcells⟩ := h
      obtain ⟨z, rfl⟩ : ∃ z, y = z + 1 := ⟨y - 1, by omega⟩
      obtain ⟨hcolor', hcells'⟩ := fillRow_spec (t := t') (y := z) (by omega)
        (fun x t => t.buffer (cellIndex (z + 1) x)) (fun x => t'.buffer (cellIndex (z + 1) x))
        (fun x t'' hx _ hrest => hrest _ _ (by omega) hx (by omega))
      rw [copyRow_eq]
      refine ⟨hcolor'.trans hcolor, fun r c hr hc => ?_⟩
      rw [hcells' r c hr hc]
      by_cases hrz : r = z
      · rw [if_pos hrz, if_pos (by omega), hcells (z + 1) c (by omega) hc, if_neg (by omega), hrz]
      · rw [if_neg hrz, hcells r c hr hc]
        by_cases hdone : r + 1 < z + 1
        · rw [if_pos hdone, if_pos (by omega)]
        · rw [if_neg hdone, if_neg (by omega)])
  rw [terminalScroll_eq, (fillRow_spec (by omega) (fun _ t => makeVgaentry 32 t.color)
    (fun _ => makeVgaentry 32 t.color)
    fun x t'' _ h _ => by rw [h, hcolor]).2 r c hr hc]
  by_cases hlast : r = 24
  · rw [if_pos hlast, if_pos hlast]
  · rw [if_neg hlast, if_neg hlast, hcells r c hr hc, if_pos (by omega)]

/-! ### One character -/

/-- A part of each cell, the one that `view` takes, is the page's, and the cursors are at the same
place. -/
structure ShowsAs {α : Type*} (view : UInt16 → α) (t : Terminal) (p : TextPage α) : Prop where
  column : t.column.toNat = p.col
  row : t.row.toNat = p.row 25
  cells : ∀ r x, r < 25 → x < 80 → view (t.buffer (cellIndex r x)) = p.window 25 r x
  col_le : p.col ≤ 80

/-- What printing a character does to a page of which `blank` fills the lines that come in, and `a` is
what is written. -/
def feedPutchar {α : Type*} (blank a : α) (c : Int8) (p : TextPage α) : TextPage α :=
  if c = 10 then p.feed 25 blank
  else if c = 13 then p.carriageReturn
  else (if p.col = 80 then p.feed 25 blank else p).write a

section View

variable {α : Type*} {view : UInt16 → α} {q : TextPage α}

theorem ShowsAs.newline (h : ShowsAs view t q) :
    ShowsAs view (terminalNewline t) (q.feed 25 (view (makeVgaentry 32 t.color))) := by
  have hrow := h.row
  have hle := h.col_le
  unfold TextPage.row at hrow
  by_cases hlast : t.row + 1 = vgaHeight
  · -- the cursor is in the last row, and the window moves
    have hrow24 : t.row.toNat = 24 := by
      have hr : t.row = 24 := by
        rw [← UInt32.add_sub_cancel t.row 1, hlast]
        rfl
      rw [hr]
      rfl
    have hline : 25 ≤ q.line + 1 := by omega
    have hso := terminalScroll_storesOnly { t with column := 0 }
    simp only [terminalNewline, if_pos hlast]
    constructor
    · rw [hso.column_eq]
      rfl
    · rw [hso.row_eq]
      exact h.row.trans (TextPage.row_newline_of_le hline).symm
    · intro r x hr hx
      rw [terminalScroll_buffer hr hx, TextPage.window_feed_of_le hline]
      by_cases hr24 : r = 24
      · rw [if_pos hr24, if_pos (by omega)]
      · rw [if_neg hr24, if_neg (by omega)]
        exact h.cells (r + 1) x (by omega) hx
    · exact Nat.zero_le 80
  · have hlt := t.row.toNat_lt
    have hadd : (t.row + 1).toNat = t.row.toNat + 1 :=
      toNat_add_of_lt (by rw [show (1 : UInt32).toNat = 1 from rfl]; omega)
    have hline : q.line + 1 < 25 := by
      by_contra hc
      apply hlast
      apply eq_of_toNat
      rw [hadd, show vgaHeight.toNat = 25 from rfl]
      omega
    simp only [terminalNewline, if_neg hlast]
    constructor
    · rfl
    · have hnext := TextPage.row_newline_of_lt hline
      rw [← h.row] at hnext
      exact hadd.trans hnext.symm
    · intro r x hr hx
      rw [TextPage.window_feed_of_lt hline]
      exact h.cells r x hr hx
    · exact Nat.zero_le 80

/-- A character under a cursor that is on the screen. -/
theorem ShowsAs.write (h : ShowsAs view t q) (hcol : q.col < 80) (c : Int8) :
    ShowsAs view { terminalPutentryat c t.color t.column t.row t with column := t.column + 1 }
      (q.write (view (makeVgaentry c t.color))) := by
  have hadd : (t.column + 1).toNat = t.column.toNat + 1 := by
    have := h.column
    exact toNat_add_of_lt (by rw [show (1 : UInt32).toNat = 1 from rfl]; omega)
  have hrow : q.row 25 < 25 := by
    show min q.line (25 - 1) < 25
    omega
  have hindex : t.row * vgaWidth + t.column = cellIndex (q.row 25) q.col := by
    rw [cellIndex, ← h.row, ← h.column, UInt32.ofNat_toNat, UInt32.ofNat_toNat]
  constructor
  · show (t.column + 1).toNat = q.col + 1
    rw [hadd, h.column]
  · exact h.row
  · intro r x hr hx
    show view ((t.store (t.row * vgaWidth + t.column) (makeVgaentry c t.color)).buffer
      (cellIndex r x)) = _
    rw [hindex, store_buffer _ hrow hcol hr hx, TextPage.window_write (by decide)]
    by_cases hcell : r = q.row 25 ∧ x = q.col
    · rw [if_pos hcell, if_pos hcell]
    · rw [if_neg hcell, if_neg hcell]
      exact h.cells r x hr hx
  · exact hcol

theorem terminalNewline_color : (terminalNewline t).color = t.color := by
  simp only [terminalNewline]
  split
  · exact (terminalScroll_storesOnly { t with column := 0 }).color_eq
  · rfl

/-- **Every character but a backspace** does to the screen what it does to the page. -/
theorem ShowsAs.putchar (h : ShowsAs view t q) {c : Int8} (hc : c ≠ 8) :
    ShowsAs view (terminalPutchar c t)
      (feedPutchar (view (makeVgaentry 32 t.color)) (view (makeVgaentry c t.color)) c q) := by
  have hw : vgaWidth.toNat = 80 := rfl
  rw [terminalPutchar_eq, terminalPutcharBody, feedPutchar]
  by_cases h10 : c = 10
  · rw [if_pos h10, if_pos h10]
    exact h.newline
  · rw [if_neg h10, if_neg h10]
    by_cases h13 : c = 13
    · rw [if_pos h13, if_pos h13]
      exact ⟨rfl, h.row, h.cells, Nat.zero_le 80⟩
    · rw [if_neg h13, if_neg h13, if_neg hc, terminalPutprintable]
      -- the cursor ports are not part of what is shown
      have hdraw : ∀ {u : Terminal} {q : TextPage α} (row column : UInt32), ShowsAs view u q →
          ShowsAs view (terminalDrawcursor row column u) q :=
        fun _ _ h => ⟨h.column, h.row, h.cells, h.col_le⟩
      by_cases hfull : t.column = vgaWidth
      · have hpage : q.col = 80 := by rw [← h.column, hfull, hw]
        have hwritten := h.newline.write (Nat.zero_lt_succ 79) c
        rw [terminalNewline_color] at hwritten
        rw [if_pos hfull, if_pos hpage, terminalNewline_color]
        exact hdraw _ _ hwritten
      · have hpage : q.col ≠ 80 := by
          rw [← h.column, ← hw]
          exact toNat_ne hfull
        have hle := h.col_le
        rw [if_neg hfull, if_neg hpage]
        exact hdraw _ _ (h.write (by omega) c)

end View

theorem Shows.showsAs (h : Shows t p) : ShowsAs UInt16.toUInt8 t p :=
  ⟨h.column, h.row, h.cells, h.col_le⟩

/-- On a page with nothing below the cursor there is nothing to fill. -/
theorem feedPutchar_blank (hb : p.BlankBelow 32) (c : Int8) :
    feedPutchar 32 c.toUInt8 c p = pagePutchar c p ∧ (pagePutchar c p).BlankBelow 32 := by
  rw [feedPutchar, pagePutchar, TextPage.put, TextPage.feed_eq_newline hb]
  refine ⟨rfl, ?_⟩
  split
  · exact hb.newline
  · split
    · exact hb
    · split
      · exact hb.newline.write _
      · exact hb.write _

theorem Shows.putchar (h : Shows t p) {c : Int8} (hc : c ≠ 8) :
    Shows (terminalPutchar c t) (pagePutchar c p) := by
  obtain ⟨hpage, hblank⟩ := feedPutchar_blank h.blank c
  have hshows := h.showsAs.putchar hc
  rw [makeVgaentry_low, makeVgaentry_low] at hshows
  rw [← hpage] at hblank ⊢
  exact ⟨hshows.column, hshows.row, hshows.cells, hshows.col_le, hblank⟩

/-! ### Runs -/

theorem showsAs_start {α : Type*} (view : UInt16 → α) (vgaMemory : UInt32 → UInt16) :
    ShowsAs view (terminalInitialize vgaMemory)
      (TextPage.empty (view (makeVgaentry 32 (makeColor colorLightGrey colorBlack)))) := by
  have hso := terminalInitialize_storesOnly vgaMemory
  constructor
  · rw [hso.column_eq]
    rfl
  · rw [hso.row_eq]
    rfl
  · intro r x hr hx
    rw [terminalInitialize_buffer vgaMemory hr hx]
    rfl
  · exact Nat.zero_le 80

theorem shows_start (vgaMemory : UInt32 → UInt16) :
    Shows (terminalInitialize vgaMemory) (TextPage.empty 32) := by
  have h := showsAs_start UInt16.toUInt8 vgaMemory
  rw [makeVgaentry_low] at h
  exact ⟨h.column, h.row, h.cells, h.col_le, TextPage.blankBelow_empty⟩

theorem Shows.write_all (chars : List Int8) (h : Shows t p) (hc : 8 ∉ chars) :
    Shows (terminalWrite chars t) (chars.foldl (fun p c => pagePutchar c p) p) := by
  induction chars generalizing t p with
  | nil => exact h
  | cons c chars ih =>
    rw [List.mem_cons, not_or] at hc
    exact ih (h.putchar (Ne.symm hc.1)) hc.2

/-- **The screen is the page's last 25 lines.**  After any characters without a backspace, and so
after every one of them, the cursor is where the page's is and each cell of the screen holds the
character of the page's window. -/
theorem terminal_shows_page (vgaMemory : UInt32 → UInt16) (chars : List Int8) (hc : 8 ∉ chars) :
    let t := terminalWrite chars (terminalInitialize vgaMemory)
    let p := chars.foldl (fun p c => pagePutchar c p) (TextPage.empty 32)
    t.column.toNat = p.col ∧ t.row.toNat = min p.line 24 ∧
      ∀ r x, r < 25 → x < 80 →
        (t.buffer (UInt32.ofNat (r * 80 + x))).toUInt8 = p.cells (p.line - 24 + r) x := by
  have h := (shows_start vgaMemory).write_all chars hc
  refine ⟨h.column, h.row, fun r x hr hx => ?_⟩
  have hindex : UInt32.ofNat (r * 80 + x) = cellIndex r x := by
    apply eq_of_toNat
    rw [cellIndex_eq hr hx, toNat_ofNat_of_lt (by omega)]
  rw [hindex, h.cells r x hr hx]
  exact congrArg (fun l => TextPage.cells _ l x) (by
    rw [TextPage.top]
    omega)

theorem terminal_shows_page_ab_newline :
    let t := terminalWrite [97, 13, 98, 10] (terminalInitialize fun _ => 0)
    let p := [97, 13, 98, 10].foldl (fun p c => pagePutchar c p) (TextPage.empty 32)
    t.column.toNat = p.col ∧ t.row.toNat = min p.line 24 ∧
      ∀ r x, r < 25 → x < 80 →
        (t.buffer (UInt32.ofNat (r * 80 + x))).toUInt8 = p.cells (p.line - 24 + r) x :=
  terminal_shows_page (fun _ => 0) [97, 13, 98, 10] (by decide)

end Screen

end CometOS
