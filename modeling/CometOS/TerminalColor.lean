import CometOS.TerminalPage

/-!
# The colours of the screen (`terminal_setcolor`, `terminal_putchar`)

The reference is a page of colours: what is written on it is the colour in force, whatever the
character, and a line that is scrolled in has the colour in force at the scroll.
-/

namespace CometOS

open Run Word32

inductive ColorCall
  | setcolor (color : UInt8)
  | putchar (c : Int8)

/-- The terminal, the colour in force, and the page of colours. -/
structure ColorRun where
  terminal : Terminal
  color : UInt8
  page : TextPage UInt8

def colorStep (r : ColorRun) : ColorCall → Option ColorRun
  | .setcolor color => some ⟨terminalSetcolor color r.terminal, color, r.page⟩
  | .putchar c =>
    some ⟨terminalPutchar c r.terminal, r.color, feedPutchar r.color r.color c r.page⟩

/-- After `terminal_initialize`, which writes every cell. -/
def colorStart (vgaMemory : UInt32 → UInt16) : ColorRun :=
  let color := makeColor colorLightGrey colorBlack
  ⟨terminalInitialize vgaMemory, color, TextPage.empty color⟩

/-- The attribute byte of an entry. -/
def attributeByte (entry : UInt16) : UInt8 := (entry >>> 8).toUInt8

/-- The attribute of every cell of the screen is the colour of the page's window. -/
def ColorsOk (r : ColorRun) : Prop :=
  ∀ y x, y < 25 → x < 80 → attributeByte (r.terminal.buffer (cellIndex y x)) = r.page.window 25 y x

/-- A backspace is not asked for. -/
def NoBackspace : ColorCall → Prop
  | .setcolor _ => True
  | .putchar c => c ≠ 8

/-- A character that is written is not negative, or the colour in force has all its bits set. -/
def ColorMet (r : ColorRun) : ColorCall → Prop
  | .setcolor _ => True
  | .putchar c => c ≠ 10 → c ≠ 13 → 0 ≤ c ∨ r.color = 0xFF

/-- **The sign of the character** is in the attribute: below 0 it sets all bits. -/
theorem attributeByte_makeVgaentry (c : Int8) (color : UInt8) :
    attributeByte (makeVgaentry c color) = if 0 ≤ c then color else 0xFF := by
  have hbit : ∀ i < 8, (attributeByte (makeVgaentry c color)).toBitVec.getLsbD i =
      (c.toBitVec.msb || color.toBitVec.getLsbD i) := by
    intro i hi
    have hentry : (attributeByte (makeVgaentry c color)).toBitVec =
        ((c.toBitVec.signExtend 16 ||| color.toBitVec.zeroExtend 16 <<< 8) >>> 8).setWidth 8 := rfl
    rw [hentry]
    simp [hi, BitVec.getElem_signExtend, show 8 + i < 16 by omega]
  have hmsb : c.toBitVec.msb = decide (¬ 0 ≤ c) := by
    rw [BitVec.msb_eq_toInt, decide_eq_decide, Int8.le_iff_toInt_le]
    exact not_le.symm
  apply UInt8.toBitVec_inj.1
  refine BitVec.eq_of_getLsbD_eq fun i hi => ?_
  rw [hbit i hi, hmsb]
  by_cases h : 0 ≤ c
  · rw [if_pos h, decide_eq_false (not_not.2 h), Bool.false_or]
  · rw [if_neg h, decide_eq_true h, Bool.true_or]
    have hones : ∀ i < 8, (0xFF : UInt8).toBitVec.getLsbD i = true := by decide
    exact (hones i hi).symm

/-- What a run keeps while its steps meet the condition. -/
structure ColorInv (r : ColorRun) : Prop where
  shows : ShowsAs attributeByte r.terminal r.page
  color : r.terminal.color = r.color

section Steps

variable {r r' : ColorRun}

theorem terminalPutchar_color {c : Int8} (hc : c ≠ 8) (t : Terminal) :
    (terminalPutchar c t).color = t.color := by
  rw [terminalPutchar_eq, terminalPutcharBody, if_neg hc, terminalPutprintable]
  split
  · exact terminalNewline_color
  · split
    · rfl
    · show (if t.column = vgaWidth then terminalNewline t else t).color = t.color
      split
      · exact terminalNewline_color
      · rfl

/-- What the terminal shows after a character is a page of which the character is a colour. -/
theorem ColorInv.putchar (h : ColorInv r) {c : Int8} (hc : c ≠ 8) :
    ShowsAs attributeByte (terminalPutchar c r.terminal)
      (feedPutchar r.color (if 0 ≤ c then r.color else 0xFF) c r.page) := by
  have hshows := h.shows.putchar hc
  rwa [attributeByte_makeVgaentry, attributeByte_makeVgaentry, h.color, if_pos (by decide)] at hshows

theorem ColorInv.step {o : ColorCall} (h : ColorInv r) (ho : NoBackspace o) (hc : ColorMet r o)
    (hstep : colorStep r o = some r') : ColorInv r' := by
  cases o with
  | setcolor color =>
    obtain rfl := Option.some.inj hstep
    exact ⟨⟨h.shows.column, h.shows.row, h.shows.cells, h.shows.col_le⟩, rfl⟩
  | putchar c =>
    obtain rfl := Option.some.inj hstep
    refine ⟨?_, (terminalPutchar_color ho _).trans h.color⟩
    have hpage : feedPutchar r.color (if 0 ≤ c then r.color else 0xFF) c r.page =
        feedPutchar r.color r.color c r.page := by
      by_cases hwritten : c = 10 ∨ c = 13
      · rcases hwritten with rfl | rfl
        · rfl
        · rfl
      · obtain ⟨h10, h13⟩ := not_or.1 hwritten
        rcases hc h10 h13 with hpos | hall
        · rw [if_pos hpos]
        · rw [hall, ite_self]
    have hshows := h.putchar ho
    rwa [hpage] at hshows

/-- The cell under the cursor holds what is written. -/
theorem feedPutchar_window {blank : UInt8} {c : Int8} {p : TextPage UInt8} (h10 : c ≠ 10) (h13 : c ≠ 13)
    (hle : p.col ≤ 80) : ∃ y x, y < 25 ∧ x < 80 ∧
      ∀ a, (feedPutchar blank a c p).window 25 y x = a := by
  obtain ⟨q, hq⟩ : ∃ q, q = if p.col = 80 then p.feed 25 blank else p := ⟨_, rfl⟩
  have hcol : q.col < 80 := by
    rw [hq]
    split
    · exact Nat.zero_lt_succ 79
    · omega
  have hrow : q.row 25 < 25 := by
    show min q.line (25 - 1) < 25
    omega
  refine ⟨q.row 25, q.col, hrow, hcol, fun a => ?_⟩
  rw [feedPutchar, if_neg h10, if_neg h13, ← hq, TextPage.window_write (by decide), if_pos ⟨rfl, rfl⟩]

theorem ColorInv.not_ok {o : ColorCall} (h : ColorInv r) (ho : NoBackspace o) (hc : ¬ ColorMet r o)
    (hstep : colorStep r o = some r') : ¬ ColorsOk r' := by
  cases o with
  | setcolor color => exact absurd trivial hc
  | putchar c =>
    obtain rfl := Option.some.inj hstep
    obtain ⟨h10, h13, hneg, hcolor⟩ : c ≠ 10 ∧ c ≠ 13 ∧ ¬ 0 ≤ c ∧ r.color ≠ 0xFF := by
      simpa only [ColorMet, Classical.not_imp, not_or] using hc
    obtain ⟨y, x, hy, hx, hcell⟩ := @feedPutchar_window r.color c r.page h10 h13 h.shows.col_le
    intro hok
    have hshown := (h.putchar ho).cells y x hy hx
    rw [if_neg hneg, hcell, hok y x hy hx] at hshown
    exact hcolor ((hcell r.color).symm.trans hshown)

end Steps

theorem colorInv_start (vgaMemory : UInt32 → UInt16) : ColorInv (colorStart vgaMemory) := by
  refine ⟨?_, (terminalInitialize_storesOnly vgaMemory).color_eq⟩
  have h := showsAs_start attributeByte vgaMemory
  rwa [attributeByte_makeVgaentry, if_pos (by decide)] at h

/-- **The colours, exactly.**  Over all sequences of calls without a backspace, every cell of the screen
has the colour it should have as long as no negative character is written in another colour than
0xFF. -/
theorem colors_ok_iff (vgaMemory : UInt32 → UInt16) (calls : List ColorCall)
    (h : ∀ o ∈ calls, NoBackspace o) :
    AllStates colorStep ColorsOk (colorStart vgaMemory) calls ↔
      AllSteps colorStep ColorMet (colorStart vgaMemory) calls :=
  allStates_iff_allSteps_of (fun _ h => h.shows.cells) (fun _ _ _ h ho => h.step ho)
    (fun _ _ _ h ho => h.not_ok ho) calls _ h (colorInv_start vgaMemory)

/-- An `a` in red, and a new line after it. -/
theorem colors_ok_red : AllStates colorStep ColorsOk (colorStart fun _ => 0)
    [.setcolor 4, .putchar 97, .putchar 10] := by
  refine (colors_ok_iff (fun _ => 0) [.setcolor 4, .putchar 97, .putchar 10] (fun o ho => ?_)).2 ?_
  · simp only [List.mem_cons, List.not_mem_nil, or_false] at ho
    rcases ho with rfl | rfl | rfl
    · trivial
    · exact (by decide : (97 : Int8) ≠ 8)
    · exact (by decide : (10 : Int8) ≠ 8)
  · refine fun _ _ => ⟨trivial, fun _ _ => ⟨fun _ _ => Or.inl (by decide), fun _ _ => ⟨?_, trivial⟩⟩⟩
    exact fun h10 => absurd rfl h10

/-- **A character that is no ASCII** has another colour: the first byte of a letter in UTF-8, say, is
shown with all bits of its attribute set. -/
theorem colors_fail_negative : ¬ ∀ (vgaMemory : UInt32 → UInt16) (calls : List ColorCall),
    (∀ o ∈ calls, NoBackspace o) → AllStates colorStep ColorsOk (colorStart vgaMemory) calls := by
  intro h
  have hall := h (fun _ => 0) [.putchar (-61)] fun o ho => by
    rw [List.mem_singleton.1 ho]
    exact (by decide : (-61 : Int8) ≠ 8)
  refine (colorInv_start fun _ => 0).not_ok (o := .putchar (-61)) (show (-61 : Int8) ≠ 8 by decide)
    (fun hmet => ?_) rfl (hall.2 _ rfl)
  exact absurd (hmet (by decide) (by decide)) (by decide)

end CometOS
