import CometOS.Pic

/-!
# Interrupt handlers (`arch/i386/irq/interrupt.c`)

What the handlers work on is `σ`.  A handler is called with one word: an interrupt's with the address
of its context, an exception's with its error code.
-/

namespace CometOS

open Pic8259

abbrev Handler (σ : Type) := UInt32 → σ → σ

/-- The controllers, the two tables, what the handlers work on, and what has been printed, the latest
last.  `halted` is set by `hlt`: the gates switch interrupts off, and nothing ends the wait. -/
structure Kernel (σ : Type) where
  pics : Pair
  irqRoutines : Fin 16 → Option (Handler σ)
  isrRoutines : Fin 32 → Option (Handler σ)
  world : σ
  printed : List String
  halted : Bool

def exceptionMessages : List String :=
  ["Division By Zero", "Debug", "Non Maskable Interrupt", "Breakpoint", "Into Detected Overflow",
    "Out of Bounds", "Invalid Opcode", "No Coprocessor", "Double Fault",
    "Coprocessor Segment Overrun", "Bad TSS", "Segment Not Present", "Stack Fault",
    "General Protection Fault", "Page Fault", "Unknown Interrupt", "Coprocessor Fault",
    "Alignment Check", "Machine Check"] ++ List.replicate 13 "Reserved"

variable {σ : Type}

def irqInstallHandler (irq : Fin 16) (handler : Handler σ) (k : Kernel σ) : Kernel σ :=
  { k with irqRoutines := Function.update k.irqRoutines irq (some handler) }

def irqUninstallHandler (irq : Fin 16) (k : Kernel σ) : Kernel σ :=
  { k with irqRoutines := Function.update k.irqRoutines irq none }

def isrInstallHandler (isr : Fin 32) (handler : Handler σ) (k : Kernel σ) : Kernel σ :=
  { k with isrRoutines := Function.update k.isrRoutines isr (some handler) }

def isrUninstallHandler (isr : Fin 32) (k : Kernel σ) : Kernel σ :=
  { k with isrRoutines := Function.update k.isrRoutines isr none }

/-- `handler(word)`, if there is one. -/
def callHandler (handler : Option (Handler σ)) (word : UInt32) (k : Kernel σ) : Kernel σ :=
  match handler with
  | some handler => { k with world := handler word k.world }
  | none => k

/-- `isr_handler`.  The index is the interrupt's number, which its caller has tested. -/
def isrHandler (intNo errCode : UInt32) (k : Kernel σ) : Kernel σ :=
  let k :=
    match k.isrRoutines (Fin.ofNat 32 intNo.toNat) with
    | some handler => callHandler (some handler) errCode k
    | none =>
      if intNo < 32 then
        { k with printed := k.printed ++ [exceptionMessages.getD intNo.toNat "",
            "\nFult number:" ++ toString intNo.toNat ++ "\n\n", "System Halted!\n"] }
      else k
  { k with halted := true }

/-- The first part of `irq_handler`, the tests for the potentially spurious interrupts: whether it
returns there, and the controllers. -/
def irqSpurious (irq : UInt8) (p : Pair) : Bool × Pair :=
  if irq = 7 then ((picReadIsr p).1 &&& ((1 : UInt16) <<< 7) = 0, (picReadIsr p).2)
  else if irq = 15 then
    if (picReadIsr p).1 &&& ((1 : UInt16) <<< 15) = 0 then (true, picEoiMaster (picReadIsr p).2)
    else (false, (picReadIsr p).2)
  else (false, p)

/-- `irq_handler`. -/
def irqHandler (intNo intCtx : UInt32) (k : Kernel σ) : Kernel σ :=
  let irq := (intNo - 32).toUInt8
  let entry := irqSpurious irq k.pics
  if entry.1 then { k with pics := entry.2 }
  else
    let k := callHandler (k.irqRoutines (Fin.ofNat 16 (intNo - 32).toNat)) intCtx
      { k with pics := entry.2 }
    let k := if 8 ≤ irq then { k with pics := picEoiSlave k.pics } else k
    { k with pics := picEoiMaster k.pics }

/-- `interrupt_handler`. -/
def interruptHandler (intNo errCode intCtx : UInt32) (k : Kernel σ) : Kernel σ :=
  if intNo < 32 then isrHandler intNo errCode k
  else if 32 ≤ intNo ∧ intNo < 32 + 16 then irqHandler intNo intCtx k
  else k

/-! ### The tests for spurious interrupts -/

theorem irqSpurious_seven (p : Pair) :
    irqSpurious 7 p = (!Has p.master.isr 7, showIsr p) := by
  rw [irqSpurious, if_pos rfl]
  have hbit := picReadIsr_bit7 p
  cases h : Has p.master.isr 7 with
  | false => rw [decide_eq_true (hbit.2 h), picReadIsr_eq]; rfl
  | true => rw [decide_eq_false (fun hz => by rw [hbit.1 hz] at h; cases h), picReadIsr_eq]; rfl

theorem irqSpurious_fifteen (p : Pair) : irqSpurious 15 p =
    if Has p.slave.isr 7 then (false, showIsr p) else (true, picEoiMaster (showIsr p)) := by
  rw [irqSpurious, if_neg (by decide), if_pos rfl]
  have hbit := picReadIsr_bit15 p
  cases h : Has p.slave.isr 7 with
  | false => rw [if_pos (hbit.2 h), picReadIsr_eq]; rfl
  | true => rw [if_neg (fun hz => by rw [hbit.1 hz] at h; cases h), picReadIsr_eq]; rfl

theorem irqSpurious_other {irq : UInt8} (h7 : irq ≠ 7) (h15 : irq ≠ 15) (p : Pair) :
    irqSpurious irq p = (false, p) := by
  rw [irqSpurious, if_neg h7, if_neg h15]

end CometOS
