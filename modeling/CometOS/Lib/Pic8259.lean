import Mathlib.Tactic

/-!
# A pair of 8259A interrupt controllers

A chip latches the requests of eight lines, offers the CPU the one of highest priority (line 0 first)
that is not masked and not held back by an interrupt in service of the same or a higher priority, and
marks it in service when the CPU acknowledges it.  An end-of-interrupt command takes the mark of the
highest priority off.  As in the PC, the output of the second chip is the line `link` of the first.

Priorities are the fixed ones: rotation, the poll command and the special mask mode are left out.

`Serves x l` says that the lines in service are the members of `l`, where `l` lists the handlers
that have not ended their interrupt, the innermost first.  It has one rule for the acknowledgement
and one for the end of interrupt.
-/

namespace Pic8259

/-! ### Numbers of lines -/

/-- A controller has lines, and so its lines can be written as numerals. -/
instance neZeroEight : NeZero 8 := ⟨by decide⟩

/-- As has a pair of controllers. -/
instance neZeroSixteen : NeZero 16 := ⟨by decide⟩

/-! ### Sets of lines -/

/-- One bit for each of the eight lines. -/
abbrev Lines := BitVec 8

/-- Line `i` is one of them. -/
def Has (x : Lines) (i : Fin 8) : Bool := x.getLsbD i

def setLine (i : Fin 8) (x : Lines) : Lines := x ||| BitVec.twoPow 8 i

def clearLine (i : Fin 8) (x : Lines) : Lines := x &&& ~~~ BitVec.twoPow 8 i

/-- The line of highest priority. -/
def firstLine (x : Lines) : Option (Fin 8) := Fin.find? fun i => Has x i

@[simp] theorem has_setLine (i j : Fin 8) (x : Lines) :
    Has (setLine i x) j = (Has x j || decide (i = j)) := by
  rw [Has, setLine, BitVec.getLsbD_or, BitVec.getLsbD_twoPow, decide_eq_true i.isLt, Bool.true_and]
  simp only [Has, Fin.ext_iff]

@[simp] theorem has_clearLine (i j : Fin 8) (x : Lines) :
    Has (clearLine i x) j = (Has x j && !decide (i = j)) := by
  rw [Has, clearLine, BitVec.getLsbD_and, BitVec.getLsbD_not, BitVec.getLsbD_twoPow,
    decide_eq_true i.isLt, decide_eq_true j.isLt, Bool.true_and, Bool.true_and]
  simp only [Has, Fin.ext_iff]

@[simp] theorem has_zero (i : Fin 8) : Has 0#8 i = false := by simp [Has]

@[simp] theorem has_and_not (x y : Lines) (i : Fin 8) :
    Has (x &&& ~~~ y) i = (Has x i && !Has y i) := by
  simp [Has]

theorem lines_ext {x y : Lines} (h : ∀ i, Has x i = Has y i) : x = y := by
  apply BitVec.eq_of_getLsbD_eq
  intro i hi
  exact h ⟨i, hi⟩

theorem eq_zero_iff {x : Lines} : x = 0 ↔ ∀ i, Has x i = false := by
  constructor
  · rintro rfl i
    exact has_zero i
  · intro h
    apply lines_ext
    intro i
    rw [h i]
    exact (has_zero i).symm

theorem firstLine_eq_some {x : Lines} {i : Fin 8} :
    firstLine x = some i ↔ Has x i = true ∧ ∀ j < i, Has x j = false :=
  Fin.find?_eq_some_iff

theorem firstLine_eq_none {x : Lines} : firstLine x = none ↔ ∀ i, Has x i = false :=
  Fin.find?_eq_none_iff

/-! ### One chip -/

/-- What the next byte for the data port is. -/
inductive Expects
  | icw2 | icw3 | icw4 | ocw1
  deriving DecidableEq, Repr

structure Chip where
  irr : Lines
  isr : Lines
  imr : Lines
  base : UInt8
  icw3 : UInt8
  single : Bool
  needsIcw4 : Bool
  autoEoi : Bool
  readIsr : Bool
  expects : Expects
  deriving DecidableEq, Repr

namespace Chip

/-- A byte for the command port: the first byte of an initialization, a choice of the register to
read, or an end of interrupt. -/
def writeCommand (v : UInt8) (c : Chip) : Chip :=
  if v.toBitVec.getLsbD 4 then
    { c with
      irr := 0, isr := 0, imr := 0
      single := v.toBitVec.getLsbD 1
      needsIcw4 := v.toBitVec.getLsbD 0
      autoEoi := false
      readIsr := false
      expects := .icw2 }
  else if v.toBitVec.getLsbD 3 then
    if v.toBitVec.getLsbD 1 then { c with readIsr := v.toBitVec.getLsbD 0 } else c
  else if v.toBitVec.getLsbD 5 then
    if v.toBitVec.getLsbD 6 then { c with isr := clearLine (Fin.ofNat 8 v.toNat) c.isr }
    else { c with isr := (firstLine c.isr).elim c.isr fun i => clearLine i c.isr }
  else c

/-- A byte for the data port: the rest of an initialization, or the mask. -/
def writeData (v : UInt8) (c : Chip) : Chip :=
  match c.expects with
  | .icw2 =>
    { c with
      base := v &&& 0xF8
      expects := if ¬ c.single then .icw3 else if c.needsIcw4 then .icw4 else .ocw1 }
  | .icw3 => { c with icw3 := v, expects := if c.needsIcw4 then .icw4 else .ocw1 }
  | .icw4 => { c with autoEoi := v.toBitVec.getLsbD 1, expects := .ocw1 }
  | .ocw1 => { c with imr := v.toBitVec }

/-- What is seen at the command port. -/
def readCommand (c : Chip) : UInt8 := UInt8.ofBitVec (if c.readIsr then c.isr else c.irr)

/-- The interrupt the chip asks for. -/
def pending (c : Chip) : Option (Fin 8) :=
  (firstLine (c.irr &&& ~~~ c.imr)).filter fun i => ∀ j ≤ i, Has c.isr j = false

/-- Line `i` goes up, or is taken back before it was acknowledged. -/
def request (i : Fin 8) (c : Chip) : Chip := { c with irr := setLine i c.irr }
def withdraw (i : Fin 8) (c : Chip) : Chip := { c with irr := clearLine i c.irr }

/-- The acknowledgement of line `i`. -/
def take (i : Fin 8) (c : Chip) : Chip :=
  { c with
    irr := clearLine i c.irr
    isr := if c.autoEoi then c.isr else setLine i c.isr }

theorem pending_eq_some {c : Chip} {i : Fin 8} : c.pending = some i ↔
    (Has c.irr i = true ∧ Has c.imr i = false) ∧
      (∀ j < i, Has c.irr j = true → Has c.imr j = true) ∧ ∀ j ≤ i, Has c.isr j = false := by
  rw [pending, Option.filter_eq_some_iff, firstLine_eq_some, decide_eq_true_eq]
  simp only [has_and_not, Bool.and_eq_true, Bool.not_eq_true', Bool.and_eq_false_iff,
    Bool.not_eq_false']
  constructor
  · rintro ⟨⟨hi, hbefore⟩, hfree⟩
    refine ⟨hi, fun j hj hr => ?_, hfree⟩
    rcases hbefore j hj with h | h
    · rw [h] at hr
      cases hr
    · exact h
  · rintro ⟨hi, hbefore, hfree⟩
    refine ⟨⟨hi, fun j hj => ?_⟩, hfree⟩
    cases hr : Has c.irr j with
    | false => exact Or.inl rfl
    | true => exact Or.inr (hbefore j hj hr)

end Chip

/-! ### The pair -/

/-- The line of the first chip that the second one drives. -/
def link : Fin 8 := 2

structure Pair where
  master : Chip
  slave : Chip
  deriving DecidableEq, Repr

namespace Pair

/-- The first chip, with the second one's output on its line. -/
def linked (p : Pair) : Chip :=
  if p.slave.pending.isSome then p.master.request link else p.master.withdraw link

/-- The second chip answers for line `link`. -/
def Cascaded (p : Pair) : Prop :=
  p.master.icw3.toBitVec.getLsbD link = true ∧ p.slave.icw3.toNat % 8 = link

instance (p : Pair) : Decidable p.Cascaded := inferInstanceAs (Decidable (_ ∧ _))

/-- The CPU acknowledges an interrupt: the vector it gets, and the chips after it.  With nothing to
acknowledge, a chip answers with the vector of its line 7 and marks nothing.  If `gone`, the second
chip's requests are taken back after the first chip has passed the acknowledgement on. -/
def acknowledge (gone : Bool) (p : Pair) : UInt8 × Pair :=
  match p.linked.pending with
  | none => (p.master.base + 7, p)
  | some i =>
    if i = link ∧ p.Cascaded then
      if gone then
        (p.slave.base + 7,
          ⟨p.master.take i, { p.slave with irr := p.slave.irr &&& p.slave.imr }⟩)
      else
        match p.slave.pending with
        | none => (p.slave.base + 7, ⟨p.master.take i, p.slave⟩)
        | some k => (p.slave.base + UInt8.ofNat k, ⟨p.master.take i, p.slave.take k⟩)
    else (p.master.base + UInt8.ofNat i, ⟨p.master.take i, p.slave⟩)

variable {p : Pair} {i : Fin 8}

theorem linked_isr (p : Pair) : p.linked.isr = p.master.isr := by
  unfold linked
  split
  · rfl
  · rfl

theorem linked_imr (p : Pair) : p.linked.imr = p.master.imr := by
  unfold linked
  split
  · rfl
  · rfl

theorem has_linked_irr (p : Pair) (i : Fin 8) :
    Has p.linked.irr i = if i = link then p.slave.pending.isSome else Has p.master.irr i := by
  unfold linked
  by_cases hi : i = link
  · subst hi
    split <;> rename_i h
    · rw [if_pos rfl, h]
      simp [Chip.request]
    · rw [if_pos rfl]
      simpa [Chip.withdraw] using h
  · rw [if_neg hi]
    split
    · simp [Chip.request, Ne.symm hi]
    · simp [Chip.withdraw, Ne.symm hi]

/-- What the first chip asks for, a request of the second one's included. -/
theorem linked_pending_eq_some : p.linked.pending = some i ↔
    (Has p.linked.irr i = true ∧ Has p.master.imr i = false) ∧
      (∀ j < i, Has p.linked.irr j = true → Has p.master.imr j = true) ∧
      ∀ j ≤ i, Has p.master.isr j = false := by
  rw [Chip.pending_eq_some, linked_isr, linked_imr]

/-- What an acknowledgement can come to. -/
inductive Acknowledged (gone : Bool) (p : Pair) : UInt8 × Pair → Prop
  | nothing : p.linked.pending = none → Acknowledged gone p (p.master.base + 7, p)
  | own (i : Fin 8) : p.linked.pending = some i → ¬ (i = link ∧ p.Cascaded) →
      Acknowledged gone p (p.master.base + UInt8.ofNat i, ⟨p.master.take i, p.slave⟩)
  | gone : gone = true → p.linked.pending = some link → p.Cascaded →
      Acknowledged gone p (p.slave.base + 7,
        ⟨p.master.take link, { p.slave with irr := p.slave.irr &&& p.slave.imr }⟩)
  | slave (k : Fin 8) : gone = false → p.linked.pending = some link → p.Cascaded →
      p.slave.pending = some k →
      Acknowledged gone p (p.slave.base + UInt8.ofNat k, ⟨p.master.take link, p.slave.take k⟩)

theorem acknowledge_cases (gone : Bool) (p : Pair) : Acknowledged gone p (p.acknowledge gone) := by
  unfold acknowledge
  cases hp : p.linked.pending with
  | none => exact .nothing hp
  | some i =>
    by_cases hi : i = link ∧ p.Cascaded
    · obtain ⟨rfl, hc⟩ := hi
      simp only [hc, and_self, if_true]
      cases gone with
      | true => exact .gone rfl hp hc
      | false =>
        cases hk : p.slave.pending with
        | some k => exact .slave k rfl hp hc hk
        | none =>
          -- the first chip's line is up only for a request of the second
          have hline := (linked_pending_eq_some.1 hp).1.1
          rw [has_linked_irr, if_pos rfl, hk] at hline
          cases hline
    · simp only [hi, if_false]
      exact .own i hp hi

end Pair

/-! ### Nested service -/

/-- The lines in service are the members of `l`, each of higher priority than those after it. -/
structure Serves (x : Lines) (l : List (Fin 8)) : Prop where
  ordered : l.Pairwise (· < ·)
  mem : ∀ i, Has x i = true ↔ i ∈ l

namespace Serves

variable {x : Lines} {i : Fin 8} {l : List (Fin 8)}

theorem nil_iff : Serves x [] ↔ x = 0 := by
  constructor
  · intro h
    rw [eq_zero_iff]
    intro i
    have hi := h.mem i
    simpa using hi
  · rintro rfl
    exact ⟨List.Pairwise.nil, fun i => by simp⟩

/-- The innermost handler's line is the one of highest priority. -/
theorem firstLine_eq (h : Serves x (i :: l)) : firstLine x = some i := by
  obtain ⟨hi, _⟩ := List.pairwise_cons.1 h.ordered
  rw [firstLine_eq_some]
  refine ⟨(h.mem i).2 List.mem_cons_self, fun j hj => ?_⟩
  by_contra hx
  rcases List.mem_cons.1 ((h.mem j).1 (by simpa using hx)) with rfl | hmem
  · exact lt_irrefl _ hj
  · exact lt_asymm hj (hi j hmem)

/-- **Acknowledgement rule.** -/
theorem take (h : Serves x l) (hi : ∀ j ≤ i, Has x j = false) : Serves (setLine i x) (i :: l) := by
  constructor
  · refine List.pairwise_cons.2 ⟨fun j hj => ?_, h.ordered⟩
    by_contra hlt
    have hoff := hi j (not_lt.1 hlt)
    rw [(h.mem j).2 hj] at hoff
    cases hoff
  · intro j
    rw [has_setLine, List.mem_cons, Bool.or_eq_true, h.mem j, decide_eq_true_eq]
    constructor
    · rintro (hj | rfl)
      · exact Or.inr hj
      · exact Or.inl rfl
    · rintro (rfl | hj)
      · exact Or.inr rfl
      · exact Or.inl hj

theorem clearLine (h : Serves x (i :: l)) : Serves (clearLine i x) l := by
  obtain ⟨hi, hl⟩ := List.pairwise_cons.1 h.ordered
  refine ⟨hl, fun j => ?_⟩
  rw [has_clearLine, Bool.and_eq_true, h.mem j, List.mem_cons, Bool.not_eq_true',
    decide_eq_false_iff_not]
  constructor
  · rintro ⟨rfl | hj, hne⟩
    · exact absurd rfl hne
    · exact hj
  · intro hj
    exact ⟨Or.inr hj, fun he => lt_irrefl j (he ▸ hi j hj)⟩

/-- **End-of-interrupt rule.**  The command ends the innermost handler's interrupt. -/
theorem endOfInterrupt {c : Chip} (h : Serves c.isr (i :: l)) :
    Serves (c.writeCommand 0x20).isr l := by
  have hcommand : (c.writeCommand 0x20).isr =
      (firstLine c.isr).elim c.isr fun i => Pic8259.clearLine i c.isr := rfl
  rw [hcommand, h.firstLine_eq]
  exact h.clearLine

end Serves

end Pic8259
