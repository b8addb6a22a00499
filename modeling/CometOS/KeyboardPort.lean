import CometOS.InterruptService
import CometOS.Keyboard

/-!
# Scancodes and their interrupts (`kernel/kernel/kb.c`, `arch/i386/irq/interrupt.c`)

The keyboard's controller holds one scancode at a time.  When it gets one it asks for interrupt 1, once,
and it gets the next only after the port has been read.  So the scancodes come one for one and in their
order, unless an interrupt is served with no entry in the table: `kernel_main` switches interrupts on
before `keyboard_install` makes the entry, and nothing reads the port then.
-/

namespace CometOS

open Pic8259 Run

variable {ρ : Type}

/-! ### The port -/

/-- The byte at the port, whether it is still to be read, the scancodes the keyboard has not sent yet,
and all that it ever had. -/
structure KeyPort where
  data : UInt8
  full : Bool
  queue : List UInt8
  typed : List UInt8

/-- What the handlers work on: the port, the globals of `kb.c` with the scancodes they have got, and
whatever else there is. -/
structure KeyWorld (ρ : Type) where
  port : KeyPort
  run : KeyboardRun
  rest : ρ

/-- `keyboard_handler` with the scancode that is at the port. -/
def keyboardRead (w : KeyWorld ρ) : KeyboardRun :=
  ⟨keyboardHandler w.port.data w.run.keyboard, w.run.received ++ [w.port.data]⟩

/-- The entry of line 1 is `keyboard_handler`, if there is one, and the others leave the keyboard
alone. -/
def KeyEntry (irq : Fin 16) (handler : Option (Handler (KeyWorld ρ))) : Prop :=
  ∀ f, handler = some f → ∀ word w,
    (f word w).port = (if irq = 1 then { w.port with full := false } else w.port) ∧
    (f word w).run = if irq = 1 then keyboardRead w else w.run

namespace System

def setPort (p : KeyPort) (s : System (KeyWorld ρ)) : System (KeyWorld ρ) :=
  { s with kernel := { s.kernel with world := { s.kernel.world with port := p } } }

/-- The next thing is the call of the handler of line 1. -/
def atKeyboard (s : System (KeyWorld ρ)) : Bool :=
  s.stack.head?.any fun a => decide (a.irq = 1 ∧ a.next = .handler)

end System

/-- The scancode at the port is of the key that makes the handler read an address with no page. -/
def KeyWorld.Faults (w : KeyWorld ρ) : Prop :=
  IsKey w.port.data = true ∧ keyAction w.port.data = .pageFault

instance (w : KeyWorld ρ) : Decidable w.Faults := inferInstanceAs (Decidable (_ ∧ _))

/-- A scancode comes into being, is sent to the controller, or something else happens. -/
inductive KeyEvent (ρ : Type)
  | key (scancode : UInt8)
  | send
  | cpu (e : Event (KeyWorld ρ))

/-- Line 1 is the controller's.  After the read that faults nothing more is said. -/
def keyStep (s : System (KeyWorld ρ)) : KeyEvent ρ → Option (System (KeyWorld ρ))
  | .key scancode =>
    let port := s.kernel.world.port
    some (s.setPort { port with
      queue := port.queue ++ [scancode]
      typed := port.typed ++ [scancode] })
  | .send =>
    let port := s.kernel.world.port
    match port.queue, port.full with
    | scancode :: queue, false =>
      (s.setPort { port with data := scancode, full := true, queue := queue }).step (.request 1)
    | _, _ => none
  | .cpu (.request irq) => if irq = 1 then none else s.step (.request irq)
  | .cpu (.withdraw irq) => if irq = 1 then none else s.step (.withdraw irq)
  | .cpu .advance =>
    if s.atKeyboard ∧ s.kernel.irqRoutines 1 ≠ none ∧ s.kernel.world.Faults then none
    else s.step .advance
  | .cpu e => s.step e

/-! ### What is to hold -/

/-- The interrupts of line 1 that the handler has still to be called for. -/
def keyInterrupts (s : System (KeyWorld ρ)) : ℕ :=
  waiting 1 s.stack + (requested s.kernel.pics 1).toNat

/-- The byte at the port, if it is still to be read. -/
def KeyPort.held (p : KeyPort) : List UInt8 := if p.full then [p.data] else []

/-- What has been typed is what the handler has got, the byte at the port, and what is not sent yet, in
this order; the globals are those after what the handler has got; and the byte at the port has an
interrupt that is still to come. -/
structure KeysServed (r : KeyboardRun) (s : System (KeyWorld ρ)) : Prop where
  order : s.kernel.world.port.typed =
    s.kernel.world.run.received ++ s.kernel.world.port.held ++ s.kernel.world.port.queue
  keyboard : run keyboardStep r s.kernel.world.run.received = some s.kernel.world.run
  due : keyInterrupts s = s.kernel.world.port.full.toNat

/-- The handler of line 1 is not called for while the table has none. -/
def EntryThere (s : System (KeyWorld ρ)) : KeyEvent ρ → Prop
  | .cpu .advance => s.atKeyboard = true → s.kernel.irqRoutines 1 ≠ none
  | _ => True

/-- The table gets only entries that are right. -/
def KeyPermitted (_ : System (KeyWorld ρ)) : KeyEvent ρ → Prop
  | .cpu e => TableKeeps KeyEntry e
  | _ => True

/-- Spurious interrupts of line 7 are told. -/
def KeyTold (s : System (KeyWorld ρ)) : KeyEvent ρ → Prop
  | .cpu e => SpuriousTold s e
  | _ => True

/-! ### One step -/

section Step

variable {r : KeyboardRun} {s s' : System (KeyWorld ρ)} {e : Event (KeyWorld ρ)}

/-- What every step keeps: an interrupt that is still to come has its byte at the port. -/
structure KeyInv (r : KeyboardRun) (s : System (KeyWorld ρ)) : Prop where
  counted : Counted 1 s
  entries : ∀ irq, KeyEntry irq (s.kernel.irqRoutines irq)
  order : s.kernel.world.port.typed =
    s.kernel.world.run.received ++ s.kernel.world.port.held ++ s.kernel.world.port.queue
  keyboard : run keyboardStep r s.kernel.world.run.received = some s.kernel.world.run
  due_le : keyInterrupts s ≤ s.kernel.world.port.full.toNat

theorem atKeyboard_iff : s.atKeyboard = true ↔ ∃ ctx rest, s.stack = ⟨1, ctx, .handler⟩ :: rest := by
  unfold System.atKeyboard
  cases hstack : s.stack with
  | nil => simp
  | cons a rest =>
    obtain ⟨irq, ctx, next⟩ := a
    simp only [List.head?_cons, Option.any_some, decide_eq_true_eq, List.cons.injEq,
      Activation.mk.injEq]
    constructor
    · rintro ⟨rfl, rfl⟩
      exact ⟨ctx, rest, ⟨rfl, rfl, rfl⟩, rfl⟩
    · rintro ⟨_, _, ⟨hirq, -, hnext⟩, -⟩
      exact ⟨hirq, hnext⟩

/-- What an event of the CPU or of another line is to the keyboard: nothing, the call of its handler,
or the call that the table has no handler for. -/
inductive KeyChange (e : Event (KeyWorld ρ)) (s s' : System (KeyWorld ρ)) : Prop
  | quiet : (e = .advance → s.atKeyboard = false) → s'.kernel.world.port = s.kernel.world.port →
      s'.kernel.world.run = s.kernel.world.run → keyInterrupts s' = keyInterrupts s →
      KeyChange e s s'
  | read : e = .advance → s.kernel.irqRoutines 1 ≠ none →
      s'.kernel.world.port = { s.kernel.world.port with full := false } →
      s'.kernel.world.run = keyboardRead s.kernel.world → keyInterrupts s' + 1 = keyInterrupts s →
      KeyChange e s s'
  | missed : e = .advance → s.atKeyboard = true → s.kernel.irqRoutines 1 = none →
      s'.kernel.world = s.kernel.world → keyInterrupts s' + 1 = keyInterrupts s → KeyChange e s s'

theorem KeyInv.change (h : KeyInv r s) (hrequest : e ≠ .request 1) (hwithdraw : e ≠ .withdraw 1)
    (hs : s.step e = some s') : KeyChange e s s' := by
  obtain ⟨hlatched, hwithdrawn⟩ := @counts_step _ s s' e hs 1 (by decide) hrequest hwithdraw
  have hbefore := h.counted.conserved
  have hafter := (h.counted.step (by decide) hs).conserved
  rcases step_world hs with ⟨hworld, hstarted⟩ | ⟨irq, ctx, rest, rfl, hstack, hworld, hstarted⟩
  · refine .quiet ?_ (by rw [hworld]) (by rw [hworld]) ?_
    · rintro rfl
      rw [Bool.eq_false_iff]
      intro hat
      obtain ⟨ctx, rest, hstack⟩ := atKeyboard_iff.1 hat
      rw [System.step, System.advance, hstack] at hs
      obtain rfl := Option.some.inj hs
      have hcount : System.count 1 s.started 1 = s.started 1 := congrFun hstarted 1
      rw [System.count, Function.update_self] at hcount
      omega
    · unfold keyInterrupts
      rw [hstarted] at hafter
      omega
  · by_cases h1 : irq = 1
    · subst h1
      have hone : s'.started 1 = s.started 1 + 1 := by
        rw [hstarted, System.count, Function.update_self]
      have hless : keyInterrupts s' + 1 = keyInterrupts s := by
        unfold keyInterrupts
        omega
      cases hentry : s.kernel.irqRoutines 1 with
      | none =>
        rw [hentry] at hworld
        exact .missed rfl (atKeyboard_iff.2 ⟨ctx, rest, hstack⟩) hentry hworld hless
      | some f =>
        obtain ⟨hport, hrun⟩ := h.entries 1 f hentry ctx s.kernel.world
        rw [hentry] at hworld
        refine .read rfl (by rw [hentry]; exact Option.some_ne_none f) ?_ ?_ hless
        · rw [hworld]
          exact hport
        · rw [hworld]
          exact hrun
    · have hsame : s'.started 1 = s.started 1 := by
        rw [hstarted, System.count, Function.update_of_ne (Ne.symm h1)]
      refine .quiet ?_ ?_ ?_ ?_
      · intro _
        rw [Bool.eq_false_iff]
        intro hat
        obtain ⟨_, _, hstack'⟩ := atKeyboard_iff.1 hat
        rw [hstack] at hstack'
        cases hstack'
        exact h1 rfl
      · rw [hworld]
        cases hentry : s.kernel.irqRoutines irq with
        | none => rfl
        | some f => exact (h.entries irq f hentry ctx s.kernel.world).1.trans (if_neg h1)
      · rw [hworld]
        cases hentry : s.kernel.irqRoutines irq with
        | none => rfl
        | some f => exact (h.entries irq f hentry ctx s.kernel.world).2.trans (if_neg h1)
      · unfold keyInterrupts
        omega

/-- An interrupt that is still to come has its byte at the port. -/
theorem KeyInv.full (h : KeyInv r s) (hdue : 0 < keyInterrupts s) :
    s.kernel.world.port.full = true := by
  have hle := h.due_le
  cases hfull : s.kernel.world.port.full with
  | true => rfl
  | false =>
    rw [hfull, Bool.toNat_false] at hle
    omega

theorem KeyInv.cpu (h : KeyInv r s) (he : TableKeeps KeyEntry e) (hrequest : e ≠ .request 1)
    (hwithdraw : e ≠ .withdraw 1) (hs : s.step e = some s') : KeyInv r s' := by
  have hcounted := h.counted.step (by decide) hs
  have hentries := entries_step h.entries he hs
  cases h.change hrequest hwithdraw hs with
  | quiet _ hport hrun hdue =>
    refine ⟨hcounted, hentries, ?_, ?_, ?_⟩
    · rw [hport, hrun]
      exact h.order
    · rw [hrun]
      exact h.keyboard
    · rw [hport, hdue]
      exact h.due_le
  | read _ _ hport hrun hdue =>
    have hfull := h.full (by omega)
    have hle := h.due_le
    have horder := h.order
    refine ⟨hcounted, hentries, ?_, ?_, ?_⟩
    · rw [hport, hrun]
      rw [KeyPort.held, hfull] at horder
      simpa [KeyPort.held, keyboardRead] using horder
    · rw [hrun]
      show run keyboardStep r (s.kernel.world.run.received ++ [s.kernel.world.port.data]) = _
      rw [run_append, h.keyboard]
      rfl
    · rw [hfull, Bool.toNat_true] at hle
      rw [hport]
      show keyInterrupts s' ≤ 0
      omega
  | missed _ _ _ hworld hdue =>
    have hle := h.due_le
    refine ⟨hcounted, hentries, ?_, ?_, ?_⟩
    · rw [hworld]
      exact h.order
    · rw [hworld]
      exact h.keyboard
    · rw [hworld]
      omega

/-- The port is not one of the things that requests are about. -/
theorem Disciplined.setPort (h : Disciplined s) (p : KeyPort) : Disciplined (s.setPort p) :=
  ⟨h.ready, h.master, h.slave, h.second, h.noDevice, h.conserved⟩

theorem Counted.setPort {j : Fin 16} (h : Counted j s) (p : KeyPort) : Counted j (s.setPort p) :=
  ⟨h.ready, h.noDevice, h.conserved⟩

theorem KeyInv.key (h : KeyInv r s) {scancode : UInt8} (hs : keyStep s (.key scancode) = some s') :
    KeyInv r s' ∧ s'.kernel.world.run = s.kernel.world.run ∧
      s'.kernel.world.port.full = s.kernel.world.port.full ∧ keyInterrupts s' = keyInterrupts s := by
  obtain rfl := Option.some.inj hs
  refine ⟨⟨h.counted.setPort _, h.entries, ?_, h.keyboard, h.due_le⟩, rfl, rfl, rfl⟩
  show s.kernel.world.port.typed ++ [scancode] = s.kernel.world.run.received ++
    s.kernel.world.port.held ++ (s.kernel.world.port.queue ++ [scancode])
  rw [h.order, List.append_assoc _ s.kernel.world.port.queue]

/-- The controller gets a scancode only when its port has been read, and then asks for an interrupt. -/
theorem KeyInv.send (h : KeyInv r s) (hs : keyStep s .send = some s') :
    KeyInv r s' ∧ s'.kernel.world.run = s.kernel.world.run ∧ s.kernel.world.port.full = false ∧
      s'.kernel.world.port.full = true ∧ keyInterrupts s' = 1 := by
  unfold keyStep at hs
  simp only at hs
  split at hs
  case h_2 => cases hs
  rename_i scancode queue hqueue hfull
  have hnone : keyInterrupts s = 0 := by
    have hle := h.due_le
    rw [hfull] at hle
    exact Nat.le_zero.1 hle
  unfold keyInterrupts at hnone
  have hoff : requested s.kernel.pics 1 = false := by
    cases hon : requested s.kernel.pics 1 with
    | false => rfl
    | true =>
      rw [hon, Bool.toNat_true] at hnone
      omega
  have hd := (h.counted.setPort { s.kernel.world.port with
    data := scancode, full := true, queue := queue }).step (by decide) hs
  have hbefore := h.counted.conserved
  have hafter := hd.conserved
  rw [System.step, if_neg (by decide)] at hs
  have hs' := Option.some.inj hs
  have hlatched : s'.latched 1 = s.latched 1 + 1 := by
    rw [← hs']
    show (if requested s.kernel.pics 1 = true then s.latched else System.count 1 s.latched) 1 = _
    rw [hoff, if_neg Bool.false_ne_true, System.count, Function.update_self]
  have hwithdrawn : s'.withdrawn 1 = s.withdrawn 1 := by rw [← hs']; rfl
  have hstarted : s'.started 1 = s.started 1 := by rw [← hs']; rfl
  have hrun : s'.kernel.world.run = s.kernel.world.run := by rw [← hs']; rfl
  have hport : s'.kernel.world.port = { s.kernel.world.port with
      data := scancode, full := true, queue := queue } := by rw [← hs']; rfl
  have hdue : keyInterrupts s' = 1 := by
    unfold keyInterrupts
    omega
  refine ⟨⟨hd, ?_, ?_, ?_, ?_⟩, hrun, hfull, by rw [hport], hdue⟩
  · rw [← hs']
    exact h.entries
  · have horder := h.order
    rw [KeyPort.held, hfull, hqueue] at horder
    rw [hrun, hport]
    simpa [KeyPort.held] using horder
  · rw [hrun]
    exact h.keyboard
  · rw [hdue, hport]
    exact le_refl 1

theorem keyStep_cpu (hs : keyStep s (.cpu e) = some s') :
    s.step e = some s' ∧ e ≠ .request 1 ∧ e ≠ .withdraw 1 := by
  cases e with
  | request irq =>
    rw [keyStep] at hs
    split at hs
    case isTrue => cases hs
    rename_i h1
    exact ⟨hs, fun h => h1 (Event.request.inj h), nofun⟩
  | withdraw irq =>
    rw [keyStep] at hs
    split at hs
    case isTrue => cases hs
    rename_i h1
    exact ⟨hs, nofun, fun h => h1 (Event.withdraw.inj h)⟩
  | advance =>
    rw [keyStep] at hs
    split at hs
    case isTrue => cases hs
    exact ⟨hs, nofun, nofun⟩
  | interrupt gone ctx => exact ⟨hs, nofun, nofun⟩
  | cli => exact ⟨hs, nofun, nofun⟩
  | sti => exact ⟨hs, nofun, nofun⟩
  | install irq handler => exact ⟨hs, nofun, nofun⟩
  | uninstall irq => exact ⟨hs, nofun, nofun⟩

/-- The byte at the port has no interrupt to come: nothing will read it. -/
def Lost (s : System (KeyWorld ρ)) : Prop :=
  s.kernel.world.port.full = true ∧ keyInterrupts s = 0

variable {o : KeyEvent ρ}

theorem KeyInv.step (h : KeyInv r s) (ho : KeyPermitted s o) (hs : keyStep s o = some s') :
    KeyInv r s' := by
  cases o with
  | key scancode => exact (h.key hs).1
  | send => exact (h.send hs).1
  | cpu e =>
    obtain ⟨hstep, hrequest, hwithdraw⟩ := keyStep_cpu hs
    exact h.cpu ho hrequest hwithdraw hstep

/-- And each byte at the port has its interrupt. -/
structure KeyDue (r : KeyboardRun) (s : System (KeyWorld ρ)) : Prop extends KeyInv r s where
  due : keyInterrupts s = s.kernel.world.port.full.toNat

theorem KeyDue.step (hd : KeyDue r s) (ho : KeyPermitted s o) (hthere : EntryThere s o)
    (hs : keyStep s o = some s') : KeyDue r s' := by
  have h := hd.toKeyInv
  have hdue := hd.due
  refine ⟨h.step ho hs, ?_⟩
  cases o with
  | key scancode =>
    obtain ⟨-, -, hfull, hsame⟩ := h.key hs
    rw [hsame, hfull, hdue]
  | send =>
    obtain ⟨-, -, -, hfull, hone⟩ := h.send hs
    rw [hone, hfull]
    rfl
  | cpu e =>
    obtain ⟨hstep, hrequest, hwithdraw⟩ := keyStep_cpu hs
    cases h.change hrequest hwithdraw hstep with
    | quiet _ hport _ hsame => rw [hsame, hport, hdue]
    | read _ _ hport _ hless =>
      rw [h.full (by omega), Bool.toNat_true] at hdue
      rw [hport]
      show keyInterrupts s' = 0
      omega
    | missed he hat hnone => subst he; exact absurd hnone (hthere hat)

/-- **The miss.**  A call that the table has no handler for leaves the byte where it is. -/
theorem KeyInv.lost_of_not_there (h : KeyInv r s) (ho : KeyPermitted s o) (hno : ¬ EntryThere s o)
    (hs : keyStep s o = some s') : Lost s' := by
  cases o with
  | key scancode => exact absurd trivial hno
  | send => exact absurd trivial hno
  | cpu e =>
    obtain ⟨hstep, hrequest, hwithdraw⟩ := keyStep_cpu hs
    have he : e = .advance ∧ s.atKeyboard = true ∧ s.kernel.irqRoutines 1 = none := by
      cases e with
      | advance => exact ⟨rfl, by simpa [EntryThere] using hno⟩
      | _ => exact absurd trivial hno
    cases h.change hrequest hwithdraw hstep with
    | quiet hquiet =>
      rw [hquiet he.1] at he
      cases he.2.1
    | read _ hthere => exact absurd he.2.2 hthere
    | missed _ _ _ hworld hless =>
      have hle := h.due_le
      have hfull := h.full (by omega)
      rw [hfull, Bool.toNat_true] at hle
      exact ⟨by rw [hworld, hfull], by omega⟩

/-- There is no way back: the controller sends nothing until its port is read. -/
theorem KeyInv.lost_step (h : KeyInv r s) (hlost : Lost s) (ho : KeyPermitted s o)
    (hs : keyStep s o = some s') : Lost s' ∧ s'.kernel.world.run = s.kernel.world.run := by
  obtain ⟨hfull, hnone⟩ := hlost
  cases o with
  | key scancode =>
    obtain ⟨-, hrun, hfull', hsame⟩ := h.key hs
    exact ⟨⟨hfull'.trans hfull, hsame.trans hnone⟩, hrun⟩
  | send =>
    obtain ⟨-, -, hempty, -⟩ := h.send hs
    rw [hfull] at hempty
    cases hempty
  | cpu e =>
    obtain ⟨hstep, hrequest, hwithdraw⟩ := keyStep_cpu hs
    cases h.change hrequest hwithdraw hstep with
    | quiet _ hport hrun hsame => exact ⟨⟨by rw [hport, hfull], hsame.trans hnone⟩, hrun⟩
    | read _ _ _ _ hless => omega
    | missed _ _ _ _ hless => omega

end Step

/-! ### Runs -/

section Runs

variable {k : Kernel (KeyWorld ρ)}

/-- The kernel before anything has been typed. -/
structure KeyStart (k : Kernel (KeyWorld ρ)) : Prop where
  entries : ∀ irq, KeyEntry irq (k.irqRoutines irq)
  empty : k.world.port.full = false ∧ k.world.port.queue = [] ∧ k.world.port.typed = []
  received : k.world.run.received = []

theorem keyDue_start (hk : KeyStart k) : KeyDue k.world.run (System.start k) := by
  have hcounted := (disciplined_start k).counted 1
  have hconserved := hcounted.conserved
  have hnone : keyInterrupts (System.start k) = 0 := by
    unfold keyInterrupts
    have hzero : (System.start k).latched 1 = 0 := rfl
    omega
  obtain ⟨hfull, hqueue, htyped⟩ := hk.empty
  refine ⟨⟨hcounted, hk.entries, ?_, ?_, by rw [hnone]; exact Nat.zero_le _⟩, ?_⟩
  · show k.world.port.typed = k.world.run.received ++ k.world.port.held ++ k.world.port.queue
    rw [htyped, hk.received, hqueue, KeyPort.held, hfull]
    rfl
  · show run keyboardStep k.world.run k.world.run.received = some k.world.run
    rw [hk.received]
    rfl
  · show keyInterrupts (System.start k) = k.world.port.full.toNat
    rw [hnone, hfull]
    rfl

/-- With an entry for every interrupt of line 1, each byte at the port has its interrupt. -/
theorem keyDue_of_there (hk : KeyStart k) {es : List (KeyEvent ρ)}
    (h : Permitted keyStep KeyPermitted (System.start k) es)
    (hthere : AllSteps keyStep EntryThere (System.start k) es) :
    AllStates keyStep (KeyDue k.world.run) (System.start k) es := by
  refine (allStates_iff_of_permitted (I := KeyDue k.world.run) (fun _ hs => hs)
    (fun s o s' hs ho hC hstep => hs.step ho hC hstep) (fun s o s' hs ho hno hstep h' => ?_) es _
    (keyDue_start hk) h).2 hthere
  obtain ⟨hfull, hnone⟩ := hs.lost_of_not_there ho hno hstep
  have hdue := h'.due
  rw [hnone, hfull] at hdue
  cases hdue

/-- **No scancode is lost or comes twice, or out of turn**, through any interleaving of the keyboard, the
other devices and the handlers, exactly as long as no interrupt of line 1 is served while the table has
no entry for it. -/
theorem keys_run_iff (k : Kernel (KeyWorld ρ)) (hk : KeyStart k) (es : List (KeyEvent ρ))
    (h : Permitted keyStep KeyPermitted (System.start k) es) :
    AllStates keyStep (KeysServed k.world.run) (System.start k) es ↔
      AllSteps keyStep EntryThere (System.start k) es := by
  refine allStates_iff_of_permitted (I := KeyDue k.world.run) ?_ ?_ ?_ es _ (keyDue_start hk) h
  · exact fun s hs => ⟨hs.order, hs.keyboard, hs.due⟩
  · exact fun s o s' hs ho hthere hstep => hs.step ho hthere hstep
  · intro s o s' hs ho hno hstep hserved
    obtain ⟨hfull, hnone⟩ := hs.lost_of_not_there ho hno hstep
    have hdue := hserved.due
    rw [hnone, hfull] at hdue
    cases hdue

/-- The entry that `keyboard_install` makes. -/
def keyboardEntry : Handler (KeyWorld ρ) := fun _ w =>
  { w with port := { w.port with full := false }, run := keyboardRead w }

theorem keyEntry_keyboardEntry : @KeyEntry ρ 1 (some keyboardEntry) := by
  rintro f ⟨⟩ word w
  exact ⟨rfl, rfl⟩

/-- The kernel with nothing in its table, and nothing typed. -/
def emptyKernel : Kernel (KeyWorld Unit) where
  pics := timerKernel.pics
  irqRoutines := fun _ => none
  isrRoutines := fun _ => none
  world := ⟨⟨0, false, [], []⟩, keyboardRunStart (fun _ => 0) fun _ => 0, ()⟩
  printed := []
  halted := false

theorem keyStart_emptyKernel : KeyStart emptyKernel :=
  ⟨nofun, ⟨rfl, rfl, rfl⟩, rfl⟩

/-- With the entry made before interrupts are switched on, an `a` arrives. -/
theorem keys_run_iff_installed : AllStates keyStep (KeysServed emptyKernel.world.run)
    (System.start emptyKernel) [.cpu (.install 1 keyboardEntry), .cpu .sti, .key 0x1E, .send] := by
  refine (keys_run_iff emptyKernel keyStart_emptyKernel _ ?_).2 ?_
  · exact ⟨keyEntry_keyboardEntry, fun _ _ => ⟨trivial, fun _ _ =>
      ⟨trivial, fun _ _ => ⟨trivial, fun _ _ => trivial⟩⟩⟩⟩
  · exact fun _ _ => ⟨trivial, fun _ _ => ⟨trivial, fun _ _ => ⟨trivial, fun _ _ =>
      ⟨trivial, trivial⟩⟩⟩⟩

/-- **One interrupt missed is the last.**  After an interrupt of line 1 has been served with no entry in
the table, no scancode ever reaches the handler again, whatever is installed. -/
theorem keys_lost (k : Kernel (KeyWorld ρ)) (hk : KeyStart k) (es es' : List (KeyEvent ρ))
    (h : Permitted keyStep KeyPermitted (System.start k) (es ++ es')) (s : System (KeyWorld ρ))
    (hrun : run keyStep (System.start k) es = some s)
    (hmissed : ¬ AllSteps keyStep EntryThere (System.start k) es) :
    AllStates keyStep (fun t => t.kernel.world.run = s.kernel.world.run) s es' := by
  have hstart := (keyDue_start hk).toKeyInv
  have hlost : Lost s :=
    of_not_allSteps (I := KeyInv k.world.run) (fun _ _ _ hs ho hstep => hs.step ho hstep)
      (fun _ _ _ hs ho hno hstep => hs.lost_of_not_there ho hno hstep)
      (fun _ _ _ hs hlost ho hstep => (hs.lost_step hlost ho hstep).1) es _ s hstart h.left hrun
      (Or.inr hmissed)
  have hinv : KeyInv k.world.run s :=
    (allStates_of_permitted (fun _ _ _ hs ho hstep => KeyInv.step hs ho hstep) es _ hstart h.left
      |> fun hall => AllStates.of_run es [] (by rw [List.append_nil]; exact hall) hrun)
  refine AllStates.imp (fun t ht => ht.2.2) (allStates_of_permitted
    (I := fun t => KeyInv k.world.run t ∧ Lost t ∧ t.kernel.world.run = s.kernel.world.run)
    (fun t o t' ht ho hstep => ?_) es' s ⟨hinv, hlost, rfl⟩ (permitted_append es es' h hrun))
  obtain ⟨hlost', hsame⟩ := ht.1.lost_step ht.2.1 ho hstep
  exact ⟨ht.1.step ho hstep, hlost', hsame.trans ht.2.2⟩

/-- An `a` is typed before the entry is made. -/
def earlyKey : List (KeyEvent Unit) := [.cpu .sti, .key 0x1E, .send, .cpu (.interrupt false 0)]

/-- Nothing that is typed afterwards arrives. -/
theorem keys_lost_early : ∃ s, run keyStep (System.start emptyKernel) (earlyKey ++ [.cpu .advance]) =
      some s ∧
    AllStates keyStep (fun t => t.kernel.world.run = s.kernel.world.run) s
      [.cpu (.install 1 keyboardEntry), .key 0x30] := by
  obtain ⟨s, hs⟩ := Option.isSome_iff_exists.1 (show (run keyStep (System.start emptyKernel)
    (earlyKey ++ [.cpu .advance])).isSome = true by decide)
  refine ⟨s, hs, keys_lost emptyKernel keyStart_emptyKernel _ _ ?_ s hs fun h => ?_⟩
  · exact ⟨trivial, fun _ _ => ⟨trivial, fun _ _ => ⟨trivial, fun _ _ => ⟨trivial, fun _ _ =>
      ⟨trivial, fun _ _ => ⟨keyEntry_keyboardEntry, fun _ _ => ⟨trivial, fun _ _ => trivial⟩⟩⟩⟩⟩⟩⟩
  · obtain ⟨t, ht⟩ := Option.isSome_iff_exists.1
      (show (run keyStep (System.start emptyKernel) earlyKey).isSome = true by decide)
    have hat : (run keyStep (System.start emptyKernel) earlyKey).map System.atKeyboard = some true := by
      decide
    have hnone : (run keyStep (System.start emptyKernel) earlyKey).map
        (fun t => (t.kernel.irqRoutines 1).isNone) = some true := by decide
    rw [ht] at hat hnone
    have hthere := AllSteps.of_run earlyKey h ht hs
    exact hthere (Option.some.inj hat) (Option.isNone_iff_eq_none.1 (Option.some.inj hnone))

/-! ### Everything typed arrives -/

/-- What the controller, the CPU and the handlers do by themselves. -/
def KeyServing : KeyEvent ρ → Prop
  | .key _ => False
  | .send => True
  | .cpu e => Serving e

/-- No key that faults is still to be read. -/
def NoFault (p : KeyPort) : Prop :=
  ∀ scancode ∈ p.held ++ p.queue, ¬ (IsKey scancode = true ∧ keyAction scancode = .pageFault)

/-- What serving keeps, on the way to `typed` having arrived. -/
structure OnTheWay (r : KeyboardRun) (typed : List UInt8) (s : System (KeyWorld ρ)) : Prop
    extends KeyDue r s where
  disciplined : Disciplined s
  entry : s.kernel.irqRoutines 1 ≠ none
  typed_eq : s.kernel.world.port.typed = typed
  noFault : NoFault s.kernel.world.port

instance (p : KeyPort) : Decidable (NoFault p) := List.decidableBAll _ _

section Settle

variable {r : KeyboardRun} {typed : List UInt8} {s s' : System (KeyWorld ρ)} {e : Event (KeyWorld ρ)}

theorem irqRoutines_of_serving (he : Serving e) (hs : s.step e = some s') :
    s'.kernel.irqRoutines = s.kernel.irqRoutines := by
  funext irq
  refine entries_step (E := fun irq handler => handler = s.kernel.irqRoutines irq) (fun _ => rfl) ?_ hs irq
  cases e with
  | install irq handler => exact he.elim
  | uninstall irq => exact he.elim
  | _ => trivial

/-- While no key that faults is left, serving goes on with the keyboard as without it. -/
theorem OnTheWay.serve (h : OnTheWay r typed s) (he : Serving e) (htold : SpuriousTold s e)
    (hs : s.step e = some s') : keyStep s (.cpu e) = some s' ∧ OnTheWay r typed s' ∧
      s'.kernel.world.port.queue = s.kernel.world.port.queue := by
  have hsame := irqRoutines_of_serving he hs
  have hkey : keyStep s (.cpu e) = some s' := by
    cases e with
    | advance =>
      rw [keyStep, if_neg, hs]
      rintro ⟨hat, -, hfault⟩
      obtain ⟨ctx, rest, hstack⟩ := atKeyboard_iff.1 hat
      have hwait : 0 < keyInterrupts s := by
        rw [keyInterrupts, hstack, waiting_cons, if_pos ⟨rfl, rfl⟩]
        omega
      refine h.noFault s.kernel.world.port.data ?_ hfault
      rw [KeyPort.held, h.toKeyInv.full hwait]
      exact List.mem_append_left _ (List.mem_singleton_self _)
    | interrupt gone ctx => exact hs
    | sti => exact hs
    | _ => exact he.elim
  have hpermitted : KeyPermitted s (.cpu e) := by
    cases e with
    | install irq handler => exact he.elim
    | uninstall irq => exact he.elim
    | _ => trivial
  have hthere : EntryThere s (.cpu e) := by
    cases e with
    | advance => exact fun _ => h.entry
    | _ => trivial
  obtain ⟨-, hrequest, hwithdraw⟩ := keyStep_cpu hkey
  have hport : s'.kernel.world.port = s.kernel.world.port ∨
      s'.kernel.world.port = { s.kernel.world.port with full := false } := by
    cases h.toKeyInv.change hrequest hwithdraw hs with
    | quiet _ hport => exact Or.inl hport
    | read _ _ hport => exact Or.inr hport
    | missed _ _ _ hworld => exact Or.inl (by rw [hworld])
  refine ⟨hkey, ⟨h.toKeyDue.step hpermitted hthere hkey, h.disciplined.step htold hs, ?_, ?_, ?_⟩, ?_⟩
  · rw [hsame]
    exact h.entry
  · rcases hport with hport | hport
    · rw [hport, h.typed_eq]
    · rw [hport, ← h.typed_eq]
  · rcases hport with hport | hport
    · rw [hport]
      exact h.noFault
    · rw [hport]
      exact fun c hc => h.noFault c (List.mem_append_right _ hc)
  · rcases hport with hport | hport
    · rw [hport]
    · rw [hport]

theorem OnTheWay.serve_run : ∀ (es : List (Event (KeyWorld ρ))) (s : System (KeyWorld ρ)),
    OnTheWay r typed s → (∀ e ∈ es, Serving e) → Permitted System.step SpuriousTold s es →
    run System.step s es = some s' → run keyStep s (es.map .cpu) = some s' ∧ OnTheWay r typed s' ∧
      s'.kernel.world.port.queue = s.kernel.world.port.queue := by
  intro es
  induction es with
  | nil =>
    intro s hs _ _ hrun
    cases hrun
    exact ⟨rfl, hs, rfl⟩
  | cons e es ih =>
    rintro s hs hserving ⟨htold, hrest⟩ hrun
    obtain ⟨he, hes⟩ := List.forall_mem_cons.1 hserving
    rw [run_cons] at hrun
    cases hstep : s.step e with
    | none => rw [hstep] at hrun; cases hrun
    | some t =>
      rw [hstep] at hrun
      obtain ⟨hkey, ht, hqueue⟩ := hs.serve he htold hstep
      obtain ⟨hrun', hs', hqueue'⟩ := ih t ht hes (hrest t hstep) hrun
      refine ⟨?_, hs', hqueue'.trans hqueue⟩
      rw [List.map_cons, run_cons, hkey]
      exact hrun'

theorem requests_request (p : Pair) (irq : Fin 16) :
    requests (onLine Chip.request irq p) ≤ requests p + 1 := by
  have hone : ∑ j : Fin 16, (if irq = j then 1 else 0) = 1 := by
    rw [Finset.sum_ite_eq, if_pos (Finset.mem_univ irq)]
  rw [requests, requests, ← hone, ← Finset.sum_add_distrib]
  refine Finset.sum_le_sum fun j _ => ?_
  rw [requested_request]
  by_cases hj : irq = j
  · rw [if_pos hj]
    cases requested p j <;> simp [hj]
  · rw [if_neg hj, decide_eq_false hj, Bool.or_false]
    exact le_refl _

/-- With the port read, the controller gets the next scancode. -/
theorem OnTheWay.send (h : OnTheWay r typed s) (hfull : s.kernel.world.port.full = false)
    {scancode : UInt8} {queue : List UInt8} (hqueue : s.kernel.world.port.queue = scancode :: queue) :
    ∃ s', keyStep s .send = some s' ∧ OnTheWay r typed s' ∧
      work s' + 6 * s'.kernel.world.port.queue.length <
        work s + 6 * s.kernel.world.port.queue.length := by
  have hstep : keyStep s .send = (s.setPort { s.kernel.world.port with
      data := scancode, full := true, queue := queue }).step (.request 1) := by
    simp only [keyStep, hqueue, hfull]
  have hdisciplined := h.disciplined.setPort { s.kernel.world.port with
    data := scancode, full := true, queue := queue }
  rw [System.step, if_neg (by decide)] at hstep
  refine ⟨_, hstep, ⟨h.toKeyDue.step (o := .send) trivial trivial hstep,
    hdisciplined.request (by decide), h.entry, h.typed_eq, ?_⟩, ?_⟩
  · intro c hc
    refine h.noFault c ?_
    rw [KeyPort.held, hfull, hqueue]
    exact hc
  · have hless := requests_request s.kernel.pics 1
    show 5 * requests (onLine Chip.request 1 s.kernel.pics) + stepsLeft s.stack + 6 * queue.length <
      5 * requests s.kernel.pics + stepsLeft s.stack + 6 * s.kernel.world.port.queue.length
    rw [hqueue, List.length_cons]
    omega

/-- While something typed has not arrived, something can be done about it. -/
theorem OnTheWay.progress (s : System (KeyWorld ρ)) (h : OnTheWay r typed s)
    (hleft : ¬ (s.stack = [] ∧ (∀ irq, requested s.kernel.pics irq = false) ∧
      s.kernel.world.port.queue = [])) :
    ∃ es s', (∀ o ∈ es, KeyServing o) ∧ run keyStep s es = some s' ∧ OnTheWay r typed s' ∧
      work s' + 6 * s'.kernel.world.port.queue.length <
        work s + 6 * s.kernel.world.port.queue.length := by
  by_cases hidle : s.stack = [] ∧ ∀ irq, requested s.kernel.pics irq = false
  · have hnone : keyInterrupts s = 0 := by
      rw [keyInterrupts, hidle.1, hidle.2 1]
      rfl
    have hfull : s.kernel.world.port.full = false := by
      have hdue := h.due
      rw [hnone] at hdue
      cases hf : s.kernel.world.port.full with
      | false => rfl
      | true => rw [hf] at hdue; cases hdue
    cases hqueue : s.kernel.world.port.queue with
    | nil => exact absurd ⟨hidle.1, hidle.2, hqueue⟩ hleft
    | cons scancode queue =>
      obtain ⟨s', hs', h', hless⟩ := h.send hfull hqueue
      rw [hqueue] at hless
      refine ⟨[.send], s', by simp [KeyServing], ?_, h', hless⟩
      rw [run_cons, hs']
      rfl
  · obtain ⟨es, s', hserving, hrun, -, hless, htold⟩ :=
      serving_step s ⟨h.disciplined, rfl, rfl⟩ hidle
    obtain ⟨hrun', h', hqueue⟩ := OnTheWay.serve_run es s h hserving htold hrun
    refine ⟨es.map .cpu, s', ?_, hrun', h', by rw [hqueue]; omega⟩
    intro o ho
    obtain ⟨e, he, rfl⟩ := List.mem_map.1 ho
    exact hserving e he

end Settle

theorem disciplined_keyStep {s s' : System (KeyWorld ρ)} {o : KeyEvent ρ} (h : Disciplined s)
    (htold : KeyTold s o) (hs : keyStep s o = some s') : Disciplined s' := by
  cases o with
  | key scancode =>
    obtain rfl := Option.some.inj hs
    exact h.setPort _
  | send =>
    unfold keyStep at hs
    simp only at hs
    split at hs
    · exact (h.setPort _).step (e := .request 1) nofun hs
    · cases hs
  | cpu e => exact h.step htold (keyStep_cpu hs).1

/-- **Everything typed arrives.**  If spurious interrupts were told, no interrupt of line 1 was missed and
the entry is there, then the controller, the CPU and the handlers can come by themselves to a state in
which the handler has got all that was typed, unless a key is among it that makes it fault. -/
theorem keys_settle (k : Kernel (KeyWorld ρ)) (hk : KeyStart k) (es : List (KeyEvent ρ))
    (h : Permitted keyStep KeyPermitted (System.start k) es) (s : System (KeyWorld ρ))
    (hrun : run keyStep (System.start k) es = some s)
    (htold : Permitted keyStep KeyTold (System.start k) es)
    (hthere : AllSteps keyStep EntryThere (System.start k) es)
    (hentry : s.kernel.irqRoutines 1 ≠ none) (hfault : NoFault s.kernel.world.port) :
    ∃ es' s', (∀ o ∈ es', KeyServing o) ∧ run keyStep s es' = some s' ∧ Settled s' ∧
      s'.kernel.world.run.received = s.kernel.world.port.typed := by
  have hdue := AllStates.of_run es [] (by
    rw [List.append_nil]
    exact keyDue_of_there hk h hthere) hrun
  have hdisciplined : Disciplined s := AllStates.of_run es [] (by
    rw [List.append_nil]
    exact allStates_of_permitted (fun _ _ _ h htold hs => disciplined_keyStep h htold hs) es _
      (disciplined_start k) htold) hrun
  obtain ⟨es', s', hserving, hrun', h', hstack, hnone, hqueue⟩ := run_progress
    (G := fun t => t.stack = [] ∧ (∀ irq, requested t.kernel.pics irq = false) ∧
      t.kernel.world.port.queue = [])
    (fun t => work t + 6 * t.kernel.world.port.queue.length) OnTheWay.progress s
    ⟨hdue, hdisciplined, hentry, rfl, hfault⟩
  have hmaster := h'.disciplined.master
  have hslave := h'.disciplined.slave
  rw [hstack] at hmaster hslave
  have hfull : s'.kernel.world.port.full = false := by
    have hdue' := h'.due
    rw [keyInterrupts, hstack, hnone 1] at hdue'
    cases hf : s'.kernel.world.port.full with
    | false => rfl
    | true => rw [hf] at hdue'; cases hdue'
  refine ⟨es', s', hserving, hrun',
    ⟨hstack, Serves.nil_iff.1 hmaster, Serves.nil_iff.1 hslave, hnone⟩, ?_⟩
  have horder := h'.toKeyInv.order
  rw [h'.typed_eq, hqueue, KeyPort.held, hfull] at horder
  simpa using horder.symm

/-- An `a` that has been typed arrives. -/
theorem keys_settle_installed : ∃ (es' : List (KeyEvent Unit)) (s' : System (KeyWorld Unit)),
    (∀ o ∈ es', KeyServing o) ∧
    run keyStep (System.start emptyKernel)
      (.cpu (.install 1 keyboardEntry) :: .key 0x1E :: es') = some s' ∧
    s'.kernel.world.run.received = [0x1E] := by
  have hpermitted : Permitted keyStep KeyPermitted (System.start emptyKernel)
      [.cpu (.install 1 keyboardEntry), .key 0x1E] :=
    ⟨keyEntry_keyboardEntry, fun _ _ => ⟨trivial, fun _ _ => trivial⟩⟩
  obtain ⟨es', s', hserving, hrun, -, hreceived⟩ := keys_settle emptyKernel keyStart_emptyKernel
    _ hpermitted _ rfl ⟨nofun, fun _ _ => ⟨trivial, fun _ _ => trivial⟩⟩
    (fun _ _ => ⟨trivial, fun _ _ => ⟨trivial, trivial⟩⟩) nofun (by decide)
  exact ⟨es', s', hserving, hrun, hreceived⟩

end Runs

end CometOS
