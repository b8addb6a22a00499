import CometOS.Interrupt
import CometOS.Lib.Run

/-!
# Interrupts over time (`arch/i386/irq/interrupt.c`, `arch/i386/pic.c`)

A device may ask for an interrupt at any moment and take the request back; the CPU may take one
whenever its flag is set; and a handler may set the flag, so that `irq_handler` is interrupted by
itself.  An activation is a call of it that has not returned, with the next thing it does.  The tests
for spurious interrupts are made with the flag clear, as the gates leave it, so they are one step.

`Disciplined` says that the lines in service are those of the activations that have still to send their
end of interrupt.  It fails only in one way: a spurious interrupt on line 7 of the first controller while
a real one is in service there passes for a second real one.
-/

namespace CometOS

open Pic8259 Run

/-! ### The runs -/

/-- What a call of `irq_handler` does next: calls the installed handler, ends the interrupt at the
second controller, ends it at the first, or returns. -/
inductive Point
  | handler | eoiSlave | eoiMaster | done
  deriving DecidableEq, Repr

structure Activation where
  irq : Fin 16
  intCtx : UInt32
  next : Point

/-- The interrupt flag, the activations, the innermost first, and for each line how often a request has
been latched, has been taken back, and has got as far as its handler. -/
structure System (σ : Type) where
  kernel : Kernel σ
  interrupts : Bool
  stack : List Activation
  latched : Fin 16 → ℕ
  withdrawn : Fin 16 → ℕ
  started : Fin 16 → ℕ

/-- What can happen next.  `interrupt` is the CPU's acknowledgement, with the address its frame gets;
`gone` as in `Pair.acknowledge`.  `advance` is a step of the innermost `irq_handler`.  `cli` and `sti`
are the running code's. -/
inductive Event (σ : Type)
  | request (irq : Fin 16)
  | withdraw (irq : Fin 16)
  | interrupt (gone : Bool) (intCtx : UInt32)
  | advance
  | cli
  | sti
  | install (irq : Fin 16) (handler : Handler σ)
  | uninstall (irq : Fin 16)

/-- The line of its controller that `irq` is. -/
def line (irq : Fin 16) : Fin 8 := Fin.ofNat 8 irq

/-- What happens on line `irq`, counted as the handlers do, through both controllers. -/
def onLine (f : Fin 8 → Chip → Chip) (irq : Fin 16) (p : Pair) : Pair :=
  if irq < 8 then { p with master := f (line irq) p.master }
  else { p with slave := f (line irq) p.slave }

/-- Its request is latched. -/
def requested (p : Pair) (irq : Fin 16) : Bool :=
  if irq < 8 then Has p.master.irr (line irq) else Has p.slave.irr (line irq)

/-- It is in service. -/
def inService (p : Pair) (irq : Fin 16) : Bool :=
  if irq < 8 then Has p.master.isr (line irq) else Has p.slave.isr (line irq)

variable {σ : Type}

namespace System

def setPics (p : Pair) (s : System σ) : System σ := { s with kernel := { s.kernel with pics := p } }

/-- One more of a line's events. -/
def count (irq : Fin 16) (f : Fin 16 → ℕ) : Fin 16 → ℕ := Function.update f irq (f irq + 1)

/-- The requests at the second controller that `p` has and `p'` has not. -/
def countLost (p p' : Pair) (f : Fin 16 → ℕ) : Fin 16 → ℕ := fun irq =>
  if 8 ≤ irq ∧ requested p irq ∧ ¬ requested p' irq then f irq + 1 else f irq

/-- The CPU takes an interrupt, and `irq_handler` makes its tests. -/
def enter (gone : Bool) (intCtx : UInt32) (s : System σ) : Option (System σ) :=
  let answer := s.kernel.pics.acknowledge gone
  let irq := answer.1 - 32
  let entry := irqSpurious irq answer.2
  if answer.1 < 32 ∨ 32 + 16 ≤ answer.1 then none
  else
    some { s.setPics entry.2 with
      interrupts := false
      stack := ⟨Fin.ofNat 16 irq.toNat, intCtx, if entry.1 then .done else .handler⟩ :: s.stack
      withdrawn := if gone then countLost s.kernel.pics answer.2 s.withdrawn else s.withdrawn }

/-- The innermost `irq_handler` goes on; its return restores the flag it was entered with. -/
def advance (s : System σ) : Option (System σ) :=
  match s.stack with
  | [] => none
  | ⟨irq, intCtx, .handler⟩ :: rest =>
    some { s with
      kernel := callHandler (s.kernel.irqRoutines irq) intCtx s.kernel
      stack := ⟨irq, intCtx, if 8 ≤ irq then .eoiSlave else .eoiMaster⟩ :: rest
      started := count irq s.started }
  | ⟨irq, intCtx, .eoiSlave⟩ :: rest =>
    some { s.setPics (picEoiSlave s.kernel.pics) with stack := ⟨irq, intCtx, .eoiMaster⟩ :: rest }
  | ⟨irq, intCtx, .eoiMaster⟩ :: rest =>
    some { s.setPics (picEoiMaster s.kernel.pics) with stack := ⟨irq, intCtx, .done⟩ :: rest }
  | ⟨_, _, .done⟩ :: rest => some { s with stack := rest, interrupts := true }

/-- No device is on the line that the second controller has. -/
def step (s : System σ) : Event σ → Option (System σ)
  | .request irq =>
    if irq = 2 then none
    else some { s.setPics (onLine Chip.request irq s.kernel.pics) with
      latched := if requested s.kernel.pics irq then s.latched else count irq s.latched }
  | .withdraw irq =>
    if requested s.kernel.pics irq then
      some { s.setPics (onLine Chip.withdraw irq s.kernel.pics) with
        withdrawn := count irq s.withdrawn }
    else none
  | .interrupt gone intCtx => if s.interrupts then s.enter gone intCtx else none
  | .advance => s.advance
  | .cli => some { s with interrupts := false }
  | .sti => some { s with interrupts := true }
  | .install irq handler => some { s with kernel := irqInstallHandler irq handler s.kernel }
  | .uninstall irq => some { s with kernel := irqUninstallHandler irq s.kernel }

/-- After `pic_initialize`, with interrupts still off. -/
def start (k : Kernel σ) : System σ where
  kernel := { k with pics := picInitialize k.pics }
  interrupts := false
  stack := []
  latched := fun _ => 0
  withdrawn := fun _ => 0
  started := fun _ => 0

end System

/-! ### What holds all along -/

/-- The first controller's lines whose end of interrupt is still to come, the innermost first. -/
def masterLevels : List Activation → List (Fin 8)
  | [] => []
  | a :: l =>
    if a.next = .done then masterLevels l
    else (if a.irq < 8 then line a.irq else link) :: masterLevels l

/-- The second one's. -/
def slaveLevels : List Activation → List (Fin 8)
  | [] => []
  | a :: l =>
    if 8 ≤ a.irq ∧ (a.next = .handler ∨ a.next = .eoiSlave) then line a.irq :: slaveLevels l
    else slaveLevels l

/-- The activations that have still to call the handler of `irq`. -/
def waiting (irq : Fin 16) (l : List Activation) : ℕ :=
  l.countP fun a => a.irq = irq ∧ a.next = .handler

/-- The lines in service are those of the activations that have still to end their interrupt, each of
higher priority than the ones it interrupted; and each request that was latched is still latched, has
been taken back, waits for its handler's call in one activation, or has had that call. -/
structure Disciplined (s : System σ) : Prop where
  ready : PicsReady s.kernel.pics
  master : Serves s.kernel.pics.master.isr (masterLevels s.stack)
  slave : Serves s.kernel.pics.slave.isr (slaveLevels s.stack)
  second : ∀ a ∈ s.stack, a.next = .eoiSlave → 8 ≤ a.irq
  noDevice : Has s.kernel.pics.master.irr link = false
  conserved : ∀ irq, s.latched irq = s.withdrawn irq + s.started irq + waiting irq s.stack +
    (requested s.kernel.pics irq).toNat

/-- A spurious interrupt on line 7 of the first controller comes only while no real one is in service
there. -/
def SpuriousTold (s : System σ) (e : Event σ) : Prop :=
  ∀ gone intCtx, e = .interrupt gone intCtx → s.kernel.pics.linked.pending = none →
    Has s.kernel.pics.master.isr 7 = false

/-! ### Lines and numbers -/

section Lines

variable {p q : Pair} {irq j : Fin 16}

/-- The number of a line of the first controller, and of the second. -/
def masterIrq (i : Fin 8) : Fin 16 := Fin.castLE (by decide) i
def slaveIrq (k : Fin 8) : Fin 16 := Fin.natAdd 8 k

theorem line_masterIrq : ∀ i, line (masterIrq i) = i := by decide
theorem line_slaveIrq : ∀ k, line (slaveIrq k) = k := by decide
theorem masterIrq_lt : ∀ i, masterIrq i < 8 := by decide
theorem le_slaveIrq : ∀ k, 8 ≤ slaveIrq k := by decide

theorem masterIrq_line : ∀ irq, irq < 8 → masterIrq (line irq) = irq := by decide
theorem slaveIrq_line : ∀ irq, 8 ≤ irq → slaveIrq (line irq) = irq := by decide

/-- On one controller, lines and numbers go together. -/
theorem line_inj : ∀ irq j : Fin 16, (irq < 8 ↔ j < 8) → (line irq = line j ↔ irq = j) := by decide

/-- The number that the handlers make of a vector. -/
theorem irqOf_master : ∀ i : Fin 8,
    (32 : UInt8) + UInt8.ofNat i - 32 = UInt8.ofNat (masterIrq i) := by decide
theorem irqOf_slave : ∀ k : Fin 8,
    (40 : UInt8) + UInt8.ofNat k - 32 = UInt8.ofNat (slaveIrq k) := by decide

theorem ofNat_irq : ∀ irq : Fin 16, Fin.ofNat 16 (UInt8.ofNat irq).toNat = irq := by decide

theorem ofNat_irq_ne : ∀ irq j : Fin 16, irq ≠ j → UInt8.ofNat irq ≠ UInt8.ofNat j := by decide

theorem vector_master : ∀ i : Fin 8,
    ¬ ((32 : UInt8) + UInt8.ofNat i < 32 ∨ 32 + 16 ≤ (32 : UInt8) + UInt8.ofNat i) := by decide
theorem vector_slave : ∀ k : Fin 8,
    ¬ ((40 : UInt8) + UInt8.ofNat k < 32 ∨ 32 + 16 ≤ (40 : UInt8) + UInt8.ofNat k) := by decide

theorem requested_request (p : Pair) (irq j : Fin 16) :
    requested (onLine Chip.request irq p) j = (requested p j || decide (irq = j)) := by
  have hline := line_inj irq j
  unfold requested onLine
  by_cases hi : irq < 8
  · by_cases hj : j < 8
    · simp only [hi, hj, if_true, Chip.request, has_setLine, hline (by simp [hi, hj])]
    · simp only [hi, hj, if_true, if_false, show irq ≠ j from fun h => hj (h ▸ hi), decide_false,
        Bool.or_false]
  · by_cases hj : j < 8
    · simp only [hi, hj, if_true, if_false, show irq ≠ j from fun h => hi (h ▸ hj), decide_false,
        Bool.or_false]
    · simp only [hi, hj, if_false, Chip.request, has_setLine, hline (by simp [hi, hj])]

/-- What takes a request off a line: its withdrawal, or its acknowledgement. -/
theorem requested_clear {f : Fin 8 → Chip → Chip} (hf : ∀ i c, (f i c).irr = clearLine i c.irr)
    (p : Pair) (irq j : Fin 16) :
    requested (onLine f irq p) j = (requested p j && !decide (irq = j)) := by
  have hline := line_inj irq j
  unfold requested onLine
  by_cases hi : irq < 8
  · by_cases hj : j < 8
    · simp only [hi, hj, if_true, hf, has_clearLine, hline (by simp [hi, hj])]
    · simp only [hi, hj, if_true, if_false, show irq ≠ j from fun h => hj (h ▸ hi), decide_false,
        Bool.not_false, Bool.and_true]
  · by_cases hj : j < 8
    · simp only [hi, hj, if_true, if_false, show irq ≠ j from fun h => hi (h ▸ hj), decide_false,
        Bool.not_false, Bool.and_true]
    · simp only [hi, hj, if_false, hf, has_clearLine, hline (by simp [hi, hj])]

theorem requested_congr (hm : q.master.irr = p.master.irr) (hs : q.slave.irr = p.slave.irr)
    (j : Fin 16) : requested q j = requested p j := by
  unfold requested
  rw [hm, hs]

/-- Controllers that differ in nothing but the register they show. -/
structure SameLines (p q : Pair) : Prop where
  masterIrr : q.master.irr = p.master.irr
  masterIsr : q.master.isr = p.master.isr
  slaveIrr : q.slave.irr = p.slave.irr
  slaveIsr : q.slave.isr = p.slave.isr
  ready : PicsReady p → PicsReady q

theorem SameLines.refl (p : Pair) : SameLines p p := ⟨rfl, rfl, rfl, rfl, id⟩

theorem sameLines_showIsr (p : Pair) : SameLines p (showIsr p) :=
  ⟨rfl, rfl, rfl, rfl, PicsReady.showIsr⟩

theorem SameLines.requested (h : SameLines p q) (j : Fin 16) : requested q j = requested p j :=
  requested_congr h.masterIrr h.slaveIrr j

theorem irqSpurious_of_inService (irq : Fin 16) (h : inService q irq = true) :
    ∃ q', irqSpurious (UInt8.ofNat irq) q = (false, q') ∧ SameLines q q' := by
  by_cases h7 : irq = 7
  · subst h7
    have hbit : Has q.master.isr 7 = true := h
    refine ⟨showIsr q, ?_, sameLines_showIsr q⟩
    exact (irqSpurious_seven q).trans (by rw [hbit]; rfl)
  · by_cases h15 : irq = 15
    · subst h15
      have hbit : Has q.slave.isr 7 = true := h
      refine ⟨showIsr q, ?_, sameLines_showIsr q⟩
      exact (irqSpurious_fifteen q).trans (if_pos hbit)
    · exact ⟨q, irqSpurious_other (ofNat_irq_ne irq 7 h7) (ofNat_irq_ne irq 15 h15) q, SameLines.refl q⟩

end Lines

/-! ### Levels -/

section Levels

variable {irq : Fin 16} {ctx : UInt32} {next : Point} {l : List Activation}

theorem masterLevels_master (i : Fin 8) (hnext : next ≠ .done) :
    masterLevels (⟨masterIrq i, ctx, next⟩ :: l) = i :: masterLevels l := by
  rw [masterLevels, if_neg hnext, if_pos (masterIrq_lt i), line_masterIrq]

theorem masterLevels_slave (k : Fin 8) (hnext : next ≠ .done) :
    masterLevels (⟨slaveIrq k, ctx, next⟩ :: l) = link :: masterLevels l := by
  rw [masterLevels, if_neg hnext, if_neg (not_lt.2 (le_slaveIrq k))]

theorem slaveLevels_done : slaveLevels (⟨irq, ctx, .done⟩ :: l) = slaveLevels l := by
  rw [slaveLevels, if_neg (by simp)]

theorem slaveLevels_eoiMaster : slaveLevels (⟨irq, ctx, .eoiMaster⟩ :: l) = slaveLevels l := by
  rw [slaveLevels, if_neg (by simp)]

theorem slaveLevels_master (i : Fin 8) :
    slaveLevels (⟨masterIrq i, ctx, next⟩ :: l) = slaveLevels l := by
  rw [slaveLevels, if_neg fun h => absurd h.1 (not_le.2 (masterIrq_lt i))]

theorem slaveLevels_slave (k : Fin 8) (hnext : next = .handler ∨ next = .eoiSlave) :
    slaveLevels (⟨slaveIrq k, ctx, next⟩ :: l) = k :: slaveLevels l := by
  rw [slaveLevels, if_pos ⟨le_slaveIrq k, hnext⟩, line_slaveIrq]

/-- While the second controller has a line in service, so has the first one the line that it is on. -/
theorem link_mem_masterLevels {k : Fin 8} (h : k ∈ slaveLevels l) : link ∈ masterLevels l := by
  induction l with
  | nil => cases h
  | cons a l ih =>
    rw [slaveLevels] at h
    rw [masterLevels]
    split at h
    · rename_i ha
      have hnext : a.next ≠ .done := by
        rcases ha.2 with h | h <;> simp [h]
      rw [if_neg hnext, if_neg (not_lt.2 ha.1)]
      exact List.mem_cons_self
    · split
      · exact ih h
      · exact List.mem_cons_of_mem _ (ih h)

theorem waiting_cons (j : Fin 16) : waiting j (⟨irq, ctx, next⟩ :: l) =
    waiting j l + if irq = j ∧ next = .handler then 1 else 0 := by
  unfold waiting
  rw [List.countP_cons]
  simp

end Levels

/-! ### Taking an interrupt -/

section Enter

variable {gone : Bool} {ctx : UInt32} {s s' : System σ}

/-- What taking an interrupt comes to when the controllers are ready. -/
inductive EnterResult (gone : Bool) (ctx : UInt32) (s : System σ) : System σ → Prop
  | spurious : s.kernel.pics.linked.pending = none → Has s.kernel.pics.master.isr 7 = false →
      EnterResult gone ctx s { s.setPics (showIsr s.kernel.pics) with
        interrupts := false, stack := ⟨7, ctx, .done⟩ :: s.stack }
  | mistaken : s.kernel.pics.linked.pending = none → Has s.kernel.pics.master.isr 7 = true →
      EnterResult gone ctx s { s.setPics (showIsr s.kernel.pics) with
        interrupts := false, stack := ⟨7, ctx, .handler⟩ :: s.stack }
  | own (i : Fin 8) (q : Pair) : s.kernel.pics.linked.pending = some i → i ≠ link →
      SameLines (onLine Chip.take (masterIrq i) s.kernel.pics) q →
      EnterResult gone ctx s { s.setPics q with
        interrupts := false, stack := ⟨masterIrq i, ctx, .handler⟩ :: s.stack }
  | second (k : Fin 8) (q : Pair) : s.kernel.pics.linked.pending = some link →
      s.kernel.pics.slave.pending = some k →
      SameLines ⟨s.kernel.pics.master.take link, s.kernel.pics.slave.take k⟩ q →
      EnterResult gone ctx s { s.setPics q with
        interrupts := false, stack := ⟨slaveIrq k, ctx, .handler⟩ :: s.stack }
  | vanished (q : Pair) : gone = true → s.kernel.pics.linked.pending = some link →
      q = ⟨s.kernel.pics.master.take link,
        { s.kernel.pics.slave with irr := s.kernel.pics.slave.irr &&& s.kernel.pics.slave.imr }⟩ →
      EnterResult gone ctx s { s.setPics (picEoiMaster (showIsr q)) with
        interrupts := false
        stack := ⟨15, ctx, .done⟩ :: s.stack
        withdrawn := System.countLost s.kernel.pics q s.withdrawn }

theorem countLost_of_slave_irr (p q : Pair) (h : q.slave.irr = p.slave.irr) (f : Fin 16 → ℕ) :
    System.countLost p q f = f := by
  funext irq
  refine if_neg ?_
  rintro ⟨hirq, hp, hq⟩
  rw [requested, if_neg (not_lt.2 hirq)] at hp hq
  rw [h] at hq
  exact hq hp

theorem onLine_masterIrq (f : Fin 8 → Chip → Chip) (i : Fin 8) (p : Pair) :
    onLine f (masterIrq i) p = ⟨f i p.master, p.slave⟩ := by
  rw [onLine, if_pos (masterIrq_lt i), line_masterIrq]

/-- A line of the second controller can be acknowledged only when none is in service there. -/
theorem Disciplined.slave_idle (h : Disciplined s)
    (hlink : Has s.kernel.pics.master.isr link = false) : ∀ k, Has s.kernel.pics.slave.isr k = false := by
  intro k
  by_contra hk
  have hmem := link_mem_masterLevels ((h.slave.mem k).1 (by simpa using hk))
  rw [(h.master.mem link).2 hmem] at hlink
  cases hlink

theorem enter_eq {v : UInt8} {q q' : Pair} {b : Bool} {r : Fin 16}
    (ha : s.kernel.pics.acknowledge gone = (v, q)) (hv : ¬ (v < 32 ∨ 32 + 16 ≤ v))
    (hirq : v - 32 = UInt8.ofNat r) (hb : irqSpurious (UInt8.ofNat r) q = (b, q')) :
    s.enter gone ctx = some { s.setPics q' with
      interrupts := false
      stack := ⟨r, ctx, if b then .done else .handler⟩ :: s.stack
      withdrawn := if gone then System.countLost s.kernel.pics q s.withdrawn else s.withdrawn } := by
  unfold System.enter
  simp only [ha, hirq, hb, ofNat_irq]
  exact if_neg hv

theorem Disciplined.entered (h : Disciplined s) (he : s.enter gone ctx = some s') :
    EnterResult gone ctx s s' := by
  have hm := h.ready.master
  have hs := h.ready.slave
  have hanswer := Pair.acknowledge_cases gone s.kernel.pics
  generalize ha : s.kernel.pics.acknowledge gone = answer at hanswer
  cases hanswer with
  | nothing hp =>
    rw [hm.base] at ha
    rw [enter_eq (r := 7) ha (by decide) rfl (irqSpurious_seven _), countLost_of_slave_irr _ _ rfl,
      ite_self, Option.some.injEq] at he
    subst he
    cases hbit : Has s.kernel.pics.master.isr 7 with
    | false => exact .spurious hp hbit
    | true => exact .mistaken hp hbit
  | own i hp hi =>
    have hne : i ≠ link := fun hl => hi ⟨hl, h.ready.cascaded⟩
    have hserved : inService ⟨s.kernel.pics.master.take i, s.kernel.pics.slave⟩ (masterIrq i) = true := by
      rw [inService, if_pos (masterIrq_lt i), line_masterIrq, hm.take_isr]
      simp
    obtain ⟨q, hq, hcase⟩ := irqSpurious_of_inService (masterIrq i) hserved
    rw [hm.base] at ha
    have hlost : System.countLost s.kernel.pics ⟨s.kernel.pics.master.take i, s.kernel.pics.slave⟩
        s.withdrawn = s.withdrawn :=
      countLost_of_slave_irr _ _ (by rfl) _
    rw [enter_eq ha (vector_master i) (irqOf_master i) hq, hlost, ite_self, Option.some.injEq] at he
    subst he
    refine .own i q hp hne ?_
    rw [onLine_masterIrq]
    exact hcase
  | gone hgone hp hc =>
    have hidle := h.slave_idle ((Pair.linked_pending_eq_some.1 hp).2.2 link le_rfl) 7
    rw [hs.base] at ha
    have hfifteen := (irqSpurious_fifteen ⟨s.kernel.pics.master.take link,
      { s.kernel.pics.slave with irr := s.kernel.pics.slave.irr &&& s.kernel.pics.slave.imr }⟩).trans
        (if_neg (by rw [hidle]; decide))
    rw [enter_eq (r := 15) ha (by decide) rfl hfifteen, if_pos hgone, Option.some.injEq] at he
    subst he
    exact .vanished _ hgone hp rfl
  | slave k hgone hp hc hk =>
    have hserved : inService ⟨s.kernel.pics.master.take link, s.kernel.pics.slave.take k⟩ (slaveIrq k) =
        true := by
      rw [inService, if_neg (not_lt.2 (le_slaveIrq k)), line_slaveIrq, hs.take_isr]
      simp
    obtain ⟨q, hq, hcase⟩ := irqSpurious_of_inService (slaveIrq k) hserved
    rw [hs.base] at ha
    rw [enter_eq ha (vector_slave k) (irqOf_slave k) hq, hgone, if_neg (by decide),
      Option.some.injEq] at he
    subst he
    exact .second k q hp hk hcase

/-- Nothing is asked for on the line that the second controller has. -/
theorem requested_take_link {p : Pair} (hlink : Has p.master.irr link = false) (c : Chip)
    (j : Fin 16) : requested ⟨p.master.take link, c⟩ j = requested ⟨p.master, c⟩ j := by
  unfold requested
  by_cases hj : j < 8
  · simp only [hj, if_true, Chip.take, has_clearLine]
    by_cases hl : link = line j
    · rw [← hl, hlink]
      rfl
    · simp [hl]
  · simp only [hj, if_false]

theorem Disciplined.second_cons (h : Disciplined s) {irq : Fin 16} {next : Point}
    (hnext : next = .eoiSlave → 8 ≤ irq) :
    ∀ a ∈ (⟨irq, ctx, next⟩ : Activation) :: s.stack, a.next = .eoiSlave → 8 ≤ a.irq := by
  intro a ha
  rcases List.mem_cons.1 ha with rfl | ha
  · exact hnext
  · exact h.second a ha

/-- A request that is acknowledged is no longer latched, and waits for its handler instead. -/
theorem Disciplined.conserved_taken (h : Disciplined s) {irq : Fin 16} {q : Pair}
    (hon : requested s.kernel.pics irq = true)
    (hreq : ∀ j, requested q j = (requested s.kernel.pics j && !decide (irq = j))) (j : Fin 16) :
    s.latched j = s.withdrawn j + s.started j + waiting j (⟨irq, ctx, .handler⟩ :: s.stack) +
      (requested q j).toNat := by
  have hj := h.conserved j
  rw [waiting_cons, hreq]
  by_cases hij : irq = j
  · subst hij
    rw [hon] at hj ⊢
    simp only [Bool.toNat_true, decide_true, Bool.not_true, Bool.and_false, Bool.toNat_false,
      and_self, if_true] at hj ⊢
    omega
  · simp only [hij, decide_false, Bool.not_false, Bool.and_true, false_and, if_false]
    exact hj

theorem Disciplined.noDevice_take (h : Disciplined s) (i : Fin 8) :
    Has (s.kernel.pics.master.take i).irr link = false := by
  show Has (clearLine i s.kernel.pics.master.irr) link = false
  rw [has_clearLine, h.noDevice]
  rfl

theorem Disciplined.spurious (h : Disciplined s) :
    Disciplined { s.setPics (showIsr s.kernel.pics) with
      interrupts := false, stack := ⟨7, ctx, .done⟩ :: s.stack } where
  ready := h.ready.showIsr
  master := h.master
  slave := by rw [slaveLevels_done]; exact h.slave
  second := h.second_cons (by decide)
  noDevice := h.noDevice
  conserved := by
    intro irq
    rw [waiting_cons, if_neg (by simp)]
    exact h.conserved irq

theorem Disciplined.own (h : Disciplined s) {i : Fin 8} {q : Pair}
    (hp : s.kernel.pics.linked.pending = some i) (hi : i ≠ link)
    (hq : SameLines (onLine Chip.take (masterIrq i) s.kernel.pics) q) :
    Disciplined { s.setPics q with
      interrupts := false, stack := ⟨masterIrq i, ctx, .handler⟩ :: s.stack } := by
  obtain ⟨⟨hline, -⟩, -, hfree⟩ := Pair.linked_pending_eq_some.1 hp
  rw [Pair.has_linked_irr, if_neg hi] at hline
  have hon : requested s.kernel.pics (masterIrq i) = true := by
    rw [requested, if_pos (masterIrq_lt i), line_masterIrq]
    exact hline
  have hreq : ∀ j, requested q j = (requested s.kernel.pics j && !decide (masterIrq i = j)) := by
    intro j
    rw [hq.requested, requested_clear fun _ _ => rfl]
  rw [onLine_masterIrq] at hq
  refine ⟨hq.ready ⟨h.ready.master.take i, h.ready.slave⟩, ?_, ?_, h.second_cons (fun e => by cases e),
    ?_, h.conserved_taken hon hreq⟩
  · show Serves q.master.isr _
    rw [hq.masterIsr, h.ready.master.take_isr, masterLevels_master i (by decide)]
    exact h.master.take hfree
  · show Serves q.slave.isr _
    rw [hq.slaveIsr, slaveLevels_master]
    exact h.slave
  · show Has q.master.irr link = false
    rw [hq.masterIrr]
    exact h.noDevice_take i

theorem Disciplined.second_taken (h : Disciplined s) {k : Fin 8} {q : Pair}
    (hp : s.kernel.pics.linked.pending = some link) (hk : s.kernel.pics.slave.pending = some k)
    (hq : SameLines ⟨s.kernel.pics.master.take link, s.kernel.pics.slave.take k⟩ q) :
    Disciplined { s.setPics q with
      interrupts := false, stack := ⟨slaveIrq k, ctx, .handler⟩ :: s.stack } := by
  obtain ⟨-, -, hfree⟩ := Pair.linked_pending_eq_some.1 hp
  obtain ⟨⟨hline, -⟩, -, hfree'⟩ := Chip.pending_eq_some.1 hk
  have hon : requested s.kernel.pics (slaveIrq k) = true := by
    rw [requested, if_neg (not_lt.2 (le_slaveIrq k)), line_slaveIrq]
    exact hline
  have hreq : ∀ j, requested q j = (requested s.kernel.pics j && !decide (slaveIrq k = j)) := by
    intro j
    rw [hq.requested, requested_take_link h.noDevice,
      ← requested_clear (f := Chip.take) (fun _ _ => rfl), onLine,
      if_neg (not_lt.2 (le_slaveIrq k)), line_slaveIrq]
  refine ⟨hq.ready ⟨h.ready.master.take link, h.ready.slave.take k⟩, ?_, ?_,
    h.second_cons (fun e => by cases e), ?_, h.conserved_taken hon hreq⟩
  · show Serves q.master.isr _
    rw [hq.masterIsr, h.ready.master.take_isr, masterLevels_slave k (by decide)]
    exact h.master.take hfree
  · show Serves q.slave.isr _
    rw [hq.slaveIsr, h.ready.slave.take_isr, slaveLevels_slave k (Or.inl rfl)]
    exact h.slave.take hfree'
  · show Has q.master.irr link = false
    rw [hq.masterIrr]
    exact h.noDevice_take link

/-- The first controller's line is in service for a moment only: the test finds none behind it. -/
theorem Disciplined.vanished (h : Disciplined s) {q : Pair}
    (hp : s.kernel.pics.linked.pending = some link)
    (hq : q = ⟨s.kernel.pics.master.take link,
      { s.kernel.pics.slave with irr := s.kernel.pics.slave.irr &&& s.kernel.pics.slave.imr }⟩) :
    Disciplined { s.setPics (picEoiMaster (showIsr q)) with
      interrupts := false
      stack := ⟨15, ctx, .done⟩ :: s.stack
      withdrawn := System.countLost s.kernel.pics q s.withdrawn } := by
  obtain ⟨-, -, hfree⟩ := Pair.linked_pending_eq_some.1 hp
  have hready : PicsReady q := by
    rw [hq]
    exact ⟨h.ready.master.take link, h.ready.slave.of_eq rfl rfl rfl rfl rfl⟩
  have hserves : Serves (showIsr q).master.isr (link :: masterLevels s.stack) := by
    show Serves q.master.isr _
    rw [hq, h.ready.master.take_isr]
    exact h.master.take hfree
  refine ⟨hready.showIsr.eoiMaster, ?_, ?_, h.second_cons (by decide), ?_, ?_⟩
  · exact hserves.endOfInterrupt
  · rw [slaveLevels_done]
    show Serves q.slave.isr _
    rw [hq]
    exact h.slave
  · show Has q.master.irr link = false
    rw [hq]
    exact h.noDevice_take link
  · intro j
    have hj := h.conserved j
    show s.latched j = System.countLost s.kernel.pics q s.withdrawn j + s.started j +
      waiting j (_ :: s.stack) + (requested q j).toNat
    rw [waiting_cons, if_neg (by simp), System.countLost]
    by_cases h8 : j < 8
    · have hsame : requested q j = requested s.kernel.pics j := by
        rw [hq, requested_take_link h.noDevice, requested, requested, if_pos h8, if_pos h8]
      rw [if_neg fun hlost => absurd hlost.1 (not_le.2 h8), hsame]
      exact hj
    · have hnone : requested q j = false := by
        rw [hq, requested, if_neg h8, h.ready.slave.imr]
        simp
      rw [hnone]
      cases hon : requested s.kernel.pics j with
      | false =>
        rw [hon] at hj
        simpa using hj
      | true =>
        rw [hon] at hj
        simp only [not_lt.1 h8, Bool.toNat_true, Bool.toNat_false, and_self, not_false_eq_true,
          Bool.false_eq_true, if_true] at hj ⊢
        omega

/-- The second activation of line 7 is there without a second mark. -/
theorem not_disciplined_mistaken (h : Disciplined s) (hbit : Has s.kernel.pics.master.isr 7 = true) :
    ¬ Disciplined { s.setPics (showIsr s.kernel.pics) with
      interrupts := false, stack := ⟨7, ctx, .handler⟩ :: s.stack } := by
  intro h'
  have hordered := h'.master.ordered
  rw [show (7 : Fin 16) = masterIrq 7 from rfl, masterLevels_master 7 (by decide)] at hordered
  exact lt_irrefl _ ((List.pairwise_cons.1 hordered).1 7 ((h.master.mem 7).1 hbit))

end Enter

/-! ### Going on -/

section Advance

variable {ctx : UInt32} {s s' : System σ} {irq : Fin 16} {rest : List Activation}

theorem callHandler_pics (handler : Option (Handler σ)) (word : UInt32) (k : Kernel σ) :
    (callHandler handler word k).pics = k.pics := by
  cases handler with
  | none => rfl
  | some f => rfl

theorem Disciplined.second_tail (h : Disciplined s) {a : Activation} (hstack : s.stack = a :: rest)
    {next : Point} (hnext : next = .eoiSlave → 8 ≤ irq) :
    ∀ b ∈ (⟨irq, ctx, next⟩ : Activation) :: rest, b.next = .eoiSlave → 8 ≤ b.irq := by
  intro b hb
  rcases List.mem_cons.1 hb with rfl | hb
  · exact hnext
  · exact h.second b (hstack ▸ List.mem_cons_of_mem a hb)

theorem Disciplined.handler (h : Disciplined s) (hstack : s.stack = ⟨irq, ctx, .handler⟩ :: rest) :
    Disciplined { s with
      kernel := callHandler (s.kernel.irqRoutines irq) ctx s.kernel
      stack := ⟨irq, ctx, if 8 ≤ irq then .eoiSlave else .eoiMaster⟩ :: rest
      started := System.count irq s.started } := by
  have hmaster := h.master
  have hslave := h.slave
  rw [hstack] at hmaster hslave
  refine ⟨?_, ?_, ?_, h.second_tail hstack ?_, ?_, ?_⟩
  · show PicsReady (callHandler _ _ _).pics
    rw [callHandler_pics]
    exact h.ready
  · show Serves (callHandler _ _ _).pics.master.isr _
    rw [callHandler_pics]
    by_cases h8 : 8 ≤ irq
    · rw [if_pos h8]
      exact hmaster
    · rw [if_neg h8]
      exact hmaster
  · show Serves (callHandler _ _ _).pics.slave.isr _
    rw [callHandler_pics]
    by_cases h8 : 8 ≤ irq
    · obtain ⟨k, rfl⟩ : ∃ k, irq = slaveIrq k := ⟨line irq, (slaveIrq_line irq h8).symm⟩
      rw [slaveLevels_slave k (Or.inl rfl)] at hslave
      rw [if_pos h8, slaveLevels_slave k (Or.inr rfl)]
      exact hslave
    · obtain ⟨i, rfl⟩ : ∃ i, irq = masterIrq i :=
        ⟨line irq, (masterIrq_line irq (not_le.1 h8)).symm⟩
      rw [slaveLevels_master] at hslave ⊢
      exact hslave
  · intro hnext
    by_contra h8
    rw [if_neg h8] at hnext
    cases hnext
  · show Has (callHandler _ _ _).pics.master.irr link = false
    rw [callHandler_pics]
    exact h.noDevice
  · intro j
    have hj := h.conserved j
    show s.latched j = s.withdrawn j + System.count irq s.started j +
      waiting j (_ :: rest) + (requested (callHandler _ _ _).pics j).toNat
    rw [hstack, waiting_cons] at hj
    rw [callHandler_pics, waiting_cons, if_neg (by split <;> simp), System.count]
    by_cases hij : irq = j
    · subst hij
      rw [if_pos ⟨rfl, rfl⟩] at hj
      rw [Function.update_self]
      omega
    · rw [if_neg fun hc => hij hc.1] at hj
      rw [Function.update_of_ne (Ne.symm hij)]
      omega

theorem Disciplined.eoiSlave (h : Disciplined s) (hstack : s.stack = ⟨irq, ctx, .eoiSlave⟩ :: rest) :
    Disciplined { s.setPics (picEoiSlave s.kernel.pics) with
      stack := ⟨irq, ctx, .eoiMaster⟩ :: rest } := by
  have hmaster := h.master
  have hslave := h.slave
  have hconserved := h.conserved
  have h8 : 8 ≤ irq := h.second ⟨irq, ctx, .eoiSlave⟩ (hstack ▸ List.mem_cons_self) rfl
  obtain ⟨k, rfl⟩ : ∃ k, irq = slaveIrq k := ⟨line irq, (slaveIrq_line irq h8).symm⟩
  rw [hstack] at hmaster hslave
  rw [slaveLevels_slave k (Or.inr rfl)] at hslave
  refine ⟨h.ready.eoiSlave, hmaster, ?_, h.second_tail hstack (fun e => by cases e), h.noDevice, ?_⟩
  · rw [slaveLevels_eoiMaster]
    exact hslave.endOfInterrupt
  · intro j
    have hj := h.conserved j
    rw [hstack, waiting_cons, if_neg (by simp)] at hj
    rw [waiting_cons, if_neg (by simp)]
    exact hj

theorem Disciplined.eoiMaster (h : Disciplined s) (hstack : s.stack = ⟨irq, ctx, .eoiMaster⟩ :: rest) :
    Disciplined { s.setPics (picEoiMaster s.kernel.pics) with
      stack := ⟨irq, ctx, .done⟩ :: rest } := by
  have hmaster := h.master
  have hslave := h.slave
  rw [hstack] at hmaster hslave
  rw [slaveLevels_eoiMaster] at hslave
  refine ⟨h.ready.eoiMaster, hmaster.endOfInterrupt, ?_,
    h.second_tail hstack (fun e => by cases e), h.noDevice, ?_⟩
  · rw [slaveLevels_done]
    exact hslave
  · intro j
    have hj := h.conserved j
    rw [hstack, waiting_cons, if_neg (by simp)] at hj
    rw [waiting_cons, if_neg (by simp)]
    exact hj

theorem Disciplined.done (h : Disciplined s) (hstack : s.stack = ⟨irq, ctx, .done⟩ :: rest) :
    Disciplined { s with stack := rest, interrupts := true } := by
  have hslave := h.slave
  have hmaster := h.master
  rw [hstack] at hmaster hslave
  rw [slaveLevels_done] at hslave
  refine ⟨h.ready, hmaster, hslave, fun b hb => h.second b (hstack ▸ List.mem_cons_of_mem _ hb),
    h.noDevice, fun j => ?_⟩
  have hj := h.conserved j
  rw [hstack, waiting_cons, if_neg (by simp)] at hj
  exact hj

theorem Disciplined.advance (h : Disciplined s) (hs : s.advance = some s') : Disciplined s' := by
  unfold System.advance at hs
  split at hs
  · cases hs
  · rename_i hstack
    cases hs
    exact h.handler hstack
  · rename_i hstack
    cases hs
    exact h.eoiSlave hstack
  · rename_i hstack
    cases hs
    exact h.eoiMaster hstack
  · rename_i hstack
    cases hs
    exact h.done hstack

end Advance

/-! ### Requests -/

section Request

variable {s s' : System σ} {irq : Fin 16}

/-- A change of what is requested, and of nothing else. -/
theorem Disciplined.of_request (h : Disciplined s) {f : Fin 8 → Chip → Chip}
    {latched withdrawn : Fin 16 → ℕ} (hready : ∀ base icw3 i c, ChipReady base icw3 c →
      ChipReady base icw3 (f i c)) (hisr : ∀ i c, (f i c).isr = c.isr)
    (hdevice : requested (onLine f irq s.kernel.pics) 2 = requested s.kernel.pics 2)
    (hcount : ∀ j, latched j + s.withdrawn j + (requested s.kernel.pics j).toNat =
      s.latched j + withdrawn j + (requested (onLine f irq s.kernel.pics) j).toNat) :
    Disciplined { s.setPics (onLine f irq s.kernel.pics) with
      latched := latched, withdrawn := withdrawn } := by
  have hdevice' : Has (onLine f irq s.kernel.pics).master.irr link = false := hdevice.trans h.noDevice
  have hconserved : ∀ j, latched j = withdrawn j + s.started j + waiting j s.stack +
      (requested (onLine f irq s.kernel.pics) j).toNat := by
    intro j
    have hj := h.conserved j
    have hc := hcount j
    omega
  have hr := h.ready
  unfold onLine at *
  by_cases h8 : irq < 8
  · rw [if_pos h8] at *
    refine ⟨⟨hready _ _ _ _ hr.master, hr.slave⟩, ?_, h.slave, h.second, hdevice', hconserved⟩
    show Serves (f _ _).isr _
    rw [hisr]
    exact h.master
  · rw [if_neg h8] at *
    refine ⟨⟨hr.master, hready _ _ _ _ hr.slave⟩, h.master, ?_, h.second, hdevice', hconserved⟩
    show Serves (f _ _).isr _
    rw [hisr]
    exact h.slave

/-- A request counts once, unless it is latched already. -/
theorem request_count (s : System σ) (irq j : Fin 16) :
    (if requested s.kernel.pics irq then s.latched else System.count irq s.latched) j +
        s.withdrawn j + (requested s.kernel.pics j).toNat =
      s.latched j + s.withdrawn j +
        (requested (onLine Chip.request irq s.kernel.pics) j).toNat := by
  rw [requested_request]
  by_cases hij : irq = j
  · subst hij
    cases hon : requested s.kernel.pics irq with
    | true => simp
    | false =>
      simp only [Bool.false_eq_true, if_false, System.count, Function.update_self, decide_true,
        Bool.or_true, Bool.toNat_true, Bool.toNat_false]
      omega
  · rw [decide_eq_false hij, Bool.or_false]
    split
    · rfl
    · rw [System.count, Function.update_of_ne (Ne.symm hij)]

theorem withdraw_count (hon : requested s.kernel.pics irq = true) (j : Fin 16) :
    s.latched j + s.withdrawn j + (requested s.kernel.pics j).toNat =
      s.latched j + System.count irq s.withdrawn j +
        (requested (onLine Chip.withdraw irq s.kernel.pics) j).toNat := by
  rw [requested_clear (f := Chip.withdraw) fun _ _ => rfl]
  by_cases hij : irq = j
  · subst hij
    rw [hon, System.count, Function.update_self, decide_eq_true rfl]
    rfl
  · rw [decide_eq_false hij, Bool.not_false, Bool.and_true, System.count,
      Function.update_of_ne (Ne.symm hij)]

theorem Disciplined.request (h : Disciplined s) (h2 : irq ≠ 2) :
    Disciplined { s.setPics (onLine Chip.request irq s.kernel.pics) with
      latched := if requested s.kernel.pics irq then s.latched
        else System.count irq s.latched } := by
  refine h.of_request (f := Chip.request) (fun _ _ i _ hc => hc.request i) (fun _ _ => rfl) ?_
    (request_count s irq)
  rw [requested_request, decide_eq_false h2, Bool.or_false]

theorem Disciplined.withdraw (h : Disciplined s) (hon : requested s.kernel.pics irq = true) :
    Disciplined { s.setPics (onLine Chip.withdraw irq s.kernel.pics) with
      withdrawn := System.count irq s.withdrawn } := by
  refine h.of_request (f := Chip.withdraw) (fun _ _ i _ hc => hc.withdraw i) (fun _ _ => rfl) ?_
    (withdraw_count hon)
  have hdevice : requested s.kernel.pics 2 = false := h.noDevice
  rw [requested_clear (f := Chip.withdraw) (fun _ _ => rfl), hdevice]
  rfl

end Request

/-! ### The runs -/

section Runs

variable {s s' : System σ} {e : Event σ}

/-- **Step lemma.** -/
theorem Disciplined.step (h : Disciplined s) (htold : SpuriousTold s e)
    (hs : s.step e = some s') : Disciplined s' := by
  cases e with
  | request irq =>
    by_cases h2 : irq = 2
    · rw [System.step, if_pos h2] at hs
      cases hs
    · rw [System.step, if_neg h2] at hs
      cases hs
      exact h.request h2
  | withdraw irq =>
    by_cases hon : requested s.kernel.pics irq = true
    · rw [System.step, if_pos hon] at hs
      cases hs
      exact h.withdraw hon
    · rw [System.step, if_neg hon] at hs
      cases hs
  | interrupt gone ctx =>
    rw [System.step] at hs
    split at hs
    · cases h.entered hs with
      | spurious => exact h.spurious
      | mistaken hp hbit => rw [htold gone ctx rfl hp] at hbit; cases hbit
      | own i q hp hi hq => exact h.own hp hi hq
      | second k q hp hk hq => exact h.second_taken hp hk hq
      | vanished q _ hp hq => exact h.vanished hp hq
    · cases hs
  | advance => exact h.advance hs
  | cli =>
    cases hs
    exact ⟨h.ready, h.master, h.slave, h.second, h.noDevice, h.conserved⟩
  | sti =>
    cases hs
    exact ⟨h.ready, h.master, h.slave, h.second, h.noDevice, h.conserved⟩
  | install irq handler =>
    cases hs
    exact ⟨h.ready, h.master, h.slave, h.second, h.noDevice, h.conserved⟩
  | uninstall irq =>
    cases hs
    exact ⟨h.ready, h.master, h.slave, h.second, h.noDevice, h.conserved⟩

theorem not_disciplined_of_not_told (h : Disciplined s) (htold : ¬ SpuriousTold s e)
    (hs : s.step e = some s') : ¬ Disciplined s' := by
  simp only [SpuriousTold, not_forall] at htold
  obtain ⟨gone, ctx, rfl, hp, hbit⟩ := htold
  rw [System.step] at hs
  split at hs
  · cases h.entered hs with
    | spurious _ hfree => exact absurd hfree hbit
    | mistaken _ hbit => exact not_disciplined_mistaken h hbit
    | own i q hp' => rw [hp] at hp'; cases hp'
    | second k q hp' => rw [hp] at hp'; cases hp'
    | vanished q _ hp' => rw [hp] at hp'; cases hp'
  · cases hs

theorem disciplined_start (k : Kernel σ) : Disciplined (System.start k) := by
  obtain ⟨hready, hirr, hisr, hirr', hisr'⟩ := picInitialize_ready k.pics
  refine ⟨hready, ?_, ?_, (fun a ha => by cases ha), ?_, fun j => ?_⟩
  · exact Serves.nil_iff.2 hisr
  · exact Serves.nil_iff.2 hisr'
  · show Has (picInitialize k.pics).master.irr link = false
    rw [hirr]
    rfl
  · show 0 = 0 + 0 + 0 + (requested (picInitialize k.pics) j).toNat
    rw [requested, hirr, hirr']
    simp

theorem Disciplined.allStates_iff (h : Disciplined s) (es : List (Event σ)) :
    AllStates System.step Disciplined s es ↔ AllSteps System.step SpuriousTold s es :=
  allStates_iff_allSteps (fun _ h => h) (fun _ _ _ h htold hs => h.step htold hs)
    (fun _ _ _ h htold hs => not_disciplined_of_not_told h htold hs) es s h

/-- **The discipline.**  From `pic_initialize` on, through any interleaving of requests, withdrawals,
nested handlers and changes of the flag and the table, it holds all along exactly if no spurious
interrupt of line 7 comes while a real one is in service there. -/
theorem disciplined_iff (k : Kernel σ) (es : List (Event σ)) :
    AllStates System.step Disciplined (System.start k) es ↔
      AllSteps System.step SpuriousTold (System.start k) es :=
  (disciplined_start k).allStates_iff es

end Runs

end CometOS
