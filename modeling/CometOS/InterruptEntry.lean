import CometOS.Idt
import CometOS.Lib.X86

/-!
# Entry and exit of an interrupt (`arch/i386/irq/interrupt-entry.S`)

The CPU pushes its flags, `cs` and `eip`, and for some exceptions an error code; a stub pushes what is
missing of the error code and the number; and `interrupt_handler_prepare` saves the registers, calls
`interrupt_handler`, and takes everything off again.  The kernel runs in ring 0 only, so the stack is
not switched.  The C function is a parameter: what it does between the call and its return.
-/

namespace CometOS

open ByteMemory X86

/-! ### The code -/

/-- The macro `isr`. -/
def isrStub (id : ℕ) : List Instr := [.pushImm 0, .pushImm (UInt32.ofNat id)]

/-- The macro `isr_error`: the CPU has pushed an error code. -/
def isrErrorStub (id : ℕ) : List Instr := [.pushImm (UInt32.ofNat id)]

/-- The macro `irq`. -/
def irqStub (id : ℕ) : List Instr := [.pushImm 0, .pushImm (UInt32.ofNat (id + 32))]

/-- The vectors that `isr_error` is used for. -/
def errorStubs : List ℕ := [8, 10, 11, 12, 13, 14]

/-- The stub of `isr0` to `isr31`. -/
def isrEntry (id : ℕ) : List Instr := if id ∈ errorStubs then isrErrorStub id else isrStub id

/-- `interrupt_handler_prepare`, up to the call. -/
def interruptSave : List Instr :=
  [.push .eax, .push .ecx, .push .edx, .push .ebx, .push .ebp, .push .esi, .push .edi,
    .fromSeg .ebp .ds, .push .ebp, .fromSeg .ebp .es, .push .ebp,
    .fromSeg .ebp .fs, .push .ebp, .fromSeg .ebp .gs, .push .ebp,
    .movImm .ebp 0x10, .toSeg .ds .ebp, .toSeg .es .ebp, .toSeg .fs .ebp, .toSeg .gs .ebp,
    .fromCtrl .ebp .cr2, .push .ebp,
    .mov .ebx .esp, .alu .sub .esp 4, .alu .and .esp 0xFFFFFFF0, .store .esp 0 .ebx]

/-- The rest of it. -/
def interruptRestore : List Instr :=
  [.mov .esp .ebx, .pop .ebp, .toCtrl .cr2 .ebp,
    .pop .ebp, .toSeg .gs .ebp, .pop .ebp, .toSeg .fs .ebp,
    .pop .ebp, .toSeg .es .ebp, .pop .ebp, .toSeg .ds .ebp,
    .pop .edi, .pop .esi, .pop .ebp, .pop .ebx, .pop .edx, .pop .ecx, .pop .eax,
    .alu .add .esp 8, .iret]

/-! ### The CPU's part -/

/-- Trap, interrupt, nested task, resume and virtual-8086 flags, which an interrupt gate clears. -/
def gateCleared : UInt32 := 0x00034300

/-- What the CPU pushes and clears. -/
def cpuInterrupt (selector : UInt16) (errCode : Option UInt32) (c : Cpu) : Cpu :=
  let e := ((c.pushWord c.eflags).pushWord c.cs.toUInt32).pushWord c.eip
  { errCode.elim e fun code => e.pushWord code with
    cs := selector, eflags := c.eflags &&& ~~~ gateCleared }

/-- The state in which `interrupt_handler` is called, but for the return address of the call: the handler
runs as one step, so that word, which lies below the frame, is left out. -/
def atHandler (flags : Flags) (stub : List Instr) (errCode : Option UInt32) (c : Cpu) : Cpu :=
  run flags (stub ++ interruptSave) (cpuInterrupt 0x08 errCode c)

/-- The whole of it. -/
def interrupted (flags : Flags) (handler : Cpu → Cpu) (stub : List Instr) (errCode : Option UInt32)
    (c : Cpu) : Cpu :=
  run flags interruptRestore (handler (atHandler flags stub errCode c))

/-! ### The frame -/

/-- The words of the frame, from its lowest address up. -/
def frame (intNo errCode : UInt32) (c : Cpu) : List UInt32 :=
  [c.ctrl .cr2, (c.segs .gs).toUInt32, (c.segs .fs).toUInt32, (c.segs .es).toUInt32,
    (c.segs .ds).toUInt32, c.regs .edi, c.regs .esi, c.regs .ebp, c.regs .ebx, c.regs .edx,
    c.regs .ecx, c.regs .eax, intNo, errCode, c.eip, c.cs.toUInt32, c.eflags]

/-- What the CPU and the stub push between them: an error code `e`, the CPU's own if it has one and 0
if not, and the number. -/
inductive Pushes (intNo : UInt32) : Option UInt32 → UInt32 → List Instr → Prop
  | without : Pushes intNo none 0 [.pushImm 0, .pushImm intNo]
  | given (code : UInt32) : Pushes intNo (some code) code [.pushImm intNo]

/-- Where the frame is, and the aligned address below it that the argument goes to. -/
def frameAddr (c : Cpu) : UInt32 := c.regs .esp - 68

def argumentAddr (c : Cpu) : UInt32 := (frameAddr c - 4) &&& 0xFFFFFFF0

section Frame

variable {flags : Flags} {stub : List Instr} {intNo e : UInt32} {errCode : Option UInt32} {c t : Cpu}

/-- The words that the entry code saves, in the order it pushes them. -/
def savedWords (c : Cpu) : List UInt32 :=
  [c.regs .eax, c.regs .ecx, c.regs .edx, c.regs .ebx, c.regs .ebp, c.regs .esi, c.regs .edi,
    (c.segs .ds).toUInt32, (c.segs .es).toUInt32, (c.segs .fs).toUInt32, (c.segs .gs).toUInt32,
    c.ctrl .cr2]

/-- And those before it. -/
def enteredWords (intNo e : UInt32) (c : Cpu) : List UInt32 :=
  [c.eflags, c.cs.toUInt32, c.eip, e, intNo]

theorem frame_reverse (intNo e : UInt32) (c : Cpu) :
    (frame intNo e c).reverse = enteredWords intNo e c ++ savedWords c := rfl

theorem interruptSave_eq (flags : Flags) (c : Cpu) :
    (run flags interruptSave c).regs .ebx = (pushWords (savedWords c) c).regs .esp ∧
    (run flags interruptSave c).regs .esp =
      ((pushWords (savedWords c) c).regs .esp - 4) &&& 0xFFFFFFF0 ∧
    (run flags interruptSave c).mem = write32 (pushWords (savedWords c) c).mem
      ((((pushWords (savedWords c) c).regs .esp - 4) &&& 0xFFFFFFF0) + 0)
      ((pushWords (savedWords c) c).regs .esp) := ⟨rfl, rfl, rfl⟩

/-- The CPU and the stub push words, and leave the registers that are saved next. -/
theorem entered_eq (flags : Flags) (c : Cpu) (h : Pushes intNo errCode e stub) :
    (run flags stub (cpuInterrupt 0x08 errCode c)).mem = (pushWords (enteredWords intNo e c) c).mem ∧
    (run flags stub (cpuInterrupt 0x08 errCode c)).regs .esp =
      (pushWords (enteredWords intNo e c) c).regs .esp ∧
    savedWords (run flags stub (cpuInterrupt 0x08 errCode c)) = savedWords c := by
  cases h with
  | without => exact ⟨rfl, rfl, rfl⟩
  | given code => exact ⟨rfl, rfl, rfl⟩

theorem frameAddr_eq (intNo e : UInt32) (c : Cpu) :
    (pushWords (frame intNo e c).reverse c).regs .esp = frameAddr c := by
  rw [pushWords_esp]
  rfl

/-- The argument lies below the frame, and close to it. -/
theorem argumentAddr_below (c : Cpu) :
    4 ≤ (frameAddr c - argumentAddr c).toNat ∧ (frameAddr c - argumentAddr c).toNat < 20 := by
  have hmask : (argumentAddr c).toNat = (frameAddr c - 4).toNat / 16 * 16 :=
    Word32.toNat_and_high (frameAddr c - 4) 4 (by decide)
  have hfour : frameAddr c - argumentAddr c = frameAddr c - 4 - argumentAddr c + 4 := by grind
  have hsub : (frameAddr c - 4 - argumentAddr c).toNat = (frameAddr c - 4).toNat % 16 := by
    rw [Word32.toNat_sub_of_le (by omega)]
    omega
  rw [hfour, Word32.toNat_add_of_lt (by rw [hsub, show (4 : UInt32).toNat = 4 from rfl]; omega), hsub,
    show (4 : UInt32).toNat = 4 from rfl]
  omega

/-- **The frame.**  When `interrupt_handler` is called, `ebx` and its argument have the address of the
frame, which holds what was interrupted; and nothing above the old stack pointer has changed. -/
theorem atHandler_frame (flags : Flags) (c : Cpu) (h : Pushes intNo errCode e stub) :
    (atHandler flags stub errCode c).regs .ebx = frameAddr c ∧
    (atHandler flags stub errCode c).regs .esp = argumentAddr c ∧
    read32 (atHandler flags stub errCode c).mem (argumentAddr c) = frameAddr c ∧
    WordsAt (atHandler flags stub errCode c).mem (frameAddr c) (frame intNo e c) ∧
    SameBut c.mem (atHandler flags stub errCode c).mem (c.regs .esp - 88) 88 := by
  obtain ⟨hmem, hesp, hsaved⟩ := entered_eq flags c h
  obtain ⟨hbx, hsp, hm⟩ := interruptSave_eq flags (run flags stub (cpuInterrupt 0x08 errCode c))
  obtain ⟨hmem', hesp'⟩ := pushWords_congr (savedWords c) hmem hesp
  have haddr := frameAddr_eq intNo e c
  rw [frame_reverse, pushWords_append] at haddr
  rw [hsaved, hmem', hesp', haddr] at hm
  rw [hsaved, hesp', haddr] at hbx hsp
  rw [← run_append] at hbx hsp hm
  rw [UInt32.add_zero] at hm
  change (atHandler flags stub errCode c).mem = _ at hm
  -- the frame as it was pushed, and the argument stored below it
  have hholds : WordsAt (pushWords (frame intNo e c).reverse c).mem (frameAddr c) (frame intNo e c) := by
    have hpush := @pushWords_holds c [] (frame intNo e c).reverse trivial
      (by rw [List.length_reverse]; show 4 * (17 + 0) ≤ 2 ^ 32; decide)
    rw [List.reverse_reverse, List.append_nil, frameAddr_eq] at hpush
    exact hpush
  have hsame : SameBut c.mem (pushWords (frame intNo e c).reverse c).mem (frameAddr c) 68 := by
    have hpush := pushWords_sameBut (c := c) (frame intNo e c).reverse (SameBut.refl c.mem (c.regs .esp) 0)
      (by rw [List.length_reverse]; show 0 + 4 * 17 ≤ 2 ^ 32; decide)
    rw [frameAddr_eq, List.length_reverse] at hpush
    exact hpush
  rw [frame_reverse, pushWords_append] at hholds hsame
  obtain ⟨hlo, hhi⟩ := argumentAddr_below c
  have hf := (frameAddr c).toNat_lt
  have ha := (argumentAddr c).toNat_lt
  have hstore : ∀ {x : UInt32}, 4 ≤ (x - argumentAddr c).toNat →
      (atHandler flags stub errCode c).mem x =
        (pushWords (savedWords c) (pushWords (enteredWords intNo e c) c)).mem x := by
    intro x hx
    rw [hm]
    exact write32_of_far _ _ _ hx
  refine ⟨hbx, hsp, ?_, ?_, ?_⟩
  · rw [hm]
    exact read32_write32_same _ _ _
  · refine hholds.of_sameBut (fun x hx => hstore hx) ?_
    show Apart (argumentAddr c) 4 (frameAddr c) 68
    unfold Apart
    simp only [UInt32.toNat_sub] at *
    omega
  · intro x hx
    have hframe : (x - frameAddr c).toNat = (x - (c.regs .esp - 88)).toNat - 20 := by
      rw [show x - frameAddr c = x - (c.regs .esp - 88) - 20 by unfold frameAddr; grind,
        Word32.toNat_sub_of_le (by rw [show (20 : UInt32).toNat = 20 from rfl]; omega)]
      rfl
    have hx2 : 68 ≤ (x - frameAddr c).toNat := by omega
    have hx1 : 4 ≤ (x - argumentAddr c).toNat := by
      rw [show x - argumentAddr c = x - (c.regs .esp - 88) - (20 - (frameAddr c - argumentAddr c)) by
        unfold frameAddr; grind]
      have htwenty : (20 - (frameAddr c - argumentAddr c)).toNat =
          20 - (frameAddr c - argumentAddr c).toNat :=
        Word32.toNat_sub_of_le (by rw [show (20 : UInt32).toNat = 20 from rfl]; omega)
      rw [Word32.toNat_sub_of_le (by omega), htwenty]
      omega
    rw [hstore hx1]
    exact hsame x hx2

section Restore

variable {hi : List UInt32} {cr2 gs fs es ds edi esi ebp ebx edx ecx eax : UInt32}

/-- The address past the saved registers. -/
def pastSaved (sp : UInt32) : UInt32 := sp + 4 + 4 + 4 + 4 + 4 + 4 + 4 + 4 + 4 + 4 + 4 + 4

theorem pastSaved_eq (sp : UInt32) : pastSaved sp = sp + 48 := by
  unfold pastSaved
  grind

theorem interruptRestore_regs (flags : Flags) (h : WordsAt t.mem (t.regs .ebx)
    (cr2 :: gs :: fs :: es :: ds :: edi :: esi :: ebp :: ebx :: edx :: ecx :: eax :: hi)) (r : Reg) :
    (run flags interruptRestore t).regs r = match r with
      | .eax => eax | .ecx => ecx | .edx => edx | .ebx => ebx | .ebp => ebp | .esi => esi
      | .edi => edi | .esp => pastSaved (t.regs .ebx) + 8 + 4 + 4 + 4 := by
  obtain ⟨-, -, -, -, -, hedi, hesi, hebp, hebx, hedx, hecx, heax, -⟩ := h
  cases r with
  | eax => exact heax
  | ecx => exact hecx
  | edx => exact hedx
  | ebx => exact hebx
  | ebp => exact hebp
  | esi => exact hesi
  | edi => exact hedi
  | esp => rfl

theorem interruptRestore_segs (flags : Flags) (h : WordsAt t.mem (t.regs .ebx)
    (cr2 :: gs :: fs :: es :: ds :: edi :: esi :: ebp :: ebx :: edx :: ecx :: eax :: hi)) (s : Seg) :
    (run flags interruptRestore t).segs s = match s with
      | .gs => gs.toUInt16 | .fs => fs.toUInt16 | .es => es.toUInt16 | .ds => ds.toUInt16 := by
  obtain ⟨-, hgs, hfs, hes, hds, -⟩ := h
  cases s with
  | gs => exact congrArg UInt32.toUInt16 hgs
  | fs => exact congrArg UInt32.toUInt16 hfs
  | es => exact congrArg UInt32.toUInt16 hes
  | ds => exact congrArg UInt32.toUInt16 hds

theorem interruptRestore_rest (flags : Flags) (t : Cpu) :
    (run flags interruptRestore t).ctrl =
      (fun k => if k = .cr2 then read32 t.mem (t.regs .ebx) else t.ctrl k) ∧
    (run flags interruptRestore t).eip = read32 t.mem (pastSaved (t.regs .ebx) + 8) ∧
    (run flags interruptRestore t).cs = (read32 t.mem (pastSaved (t.regs .ebx) + 8 + 4)).toUInt16 ∧
    (run flags interruptRestore t).eflags = read32 t.mem (pastSaved (t.regs .ebx) + 8 + 4 + 4) ∧
    (run flags interruptRestore t).mem = t.mem := ⟨rfl, rfl, rfl, rfl, rfl⟩

end Restore

/-- **The return.**  If the frame holds what was interrupted, that is what goes on. -/
theorem run_interruptRestore (h : WordsAt t.mem (t.regs .ebx) (frame intNo e c))
    (hebx : t.regs .ebx = frameAddr c) :
    run flags interruptRestore t = { c with
      mem := t.mem, ctrl := fun k => if k = .cr2 then c.ctrl .cr2 else t.ctrl k } := by
  have hregs := interruptRestore_regs flags h
  have hsegs := interruptRestore_segs flags h
  obtain ⟨hctrl, heip, hcs, hflags, hmem⟩ := interruptRestore_rest flags t
  obtain ⟨hcr2, -, -, -, -, -, -, -, -, -, -, -, hpast⟩ := h
  obtain ⟨heip', hcs', hflags', -⟩ := WordsAt.skip hpast
  apply Cpu.ext
  · funext r
    rw [hregs]
    cases r with
    | esp =>
      show pastSaved (t.regs .ebx) + 8 + 4 + 4 + 4 = c.regs .esp
      rw [pastSaved_eq, hebx]
      unfold frameAddr
      grind
    | eax => rfl
    | ecx => rfl
    | edx => rfl
    | ebx => rfl
    | ebp => rfl
    | esi => rfl
    | edi => rfl
  · funext s
    rw [hsegs]
    cases s with
    | gs => exact UInt16.toUInt16_toUInt32 _
    | fs => exact UInt16.toUInt16_toUInt32 _
    | es => exact UInt16.toUInt16_toUInt32 _
    | ds => exact UInt16.toUInt16_toUInt32 _
  · rw [hctrl, hcr2]
  · rw [hcs]
    exact (congrArg UInt32.toUInt16 hcs').trans (UInt16.toUInt16_toUInt32 _)
  · exact heip.trans heip'
  · exact hflags.trans hflags'
  · exact hmem

end Frame

/-! ### Through the table -/

/-- An interrupt through vector `v`, in a machine whose code at an address is `code`: the CPU finds the
gate, and the entry point's code goes on to `interrupt_handler_prepare`. -/
def takeInterrupt (flags : Flags) (code : UInt32 → List Instr) (handler : Cpu → Cpu) (idt : UInt32)
    (v : ℕ) (errCode : Option UInt32) (c : Cpu) : Option Cpu :=
  let gate := idtGate c.mem idt v
  if gate.present ∧ gate.system ∧ gate.type = 0xE then
    some (run flags interruptRestore
      (handler (run flags (code gate.offset ++ interruptSave) (cpuInterrupt gate.selector errCode c))))
  else none

/-- The entry point of each of the first 48 vectors. -/
def vectorStub (v : ℕ) : List Instr := if v < 32 then isrEntry v else irqStub (v - 32)

/-- The stubs are where the linker put them, and memory has the table of `idt_initialize`. -/
structure StubsLinked (code : UInt32 → List Instr) (isr irq : ℕ → UInt32) (idt : UInt32) (m : Mem) : Prop where
  isrs : ∀ n < 32, code (isr n) = isrEntry n
  irqs : ∀ n < 16, code (irq n) = irqStub n
  table : ∃ m₀, ∀ v < 256, idtGate m idt v = idtGate (idtInitialize idt isr irq m₀) idt v

/-- What a C function leaves alone: `ebx`, and its caller's frame. -/
structure KeepsFrame (frame : UInt32) (c c' : Cpu) : Prop where
  ebx : c'.regs .ebx = c.regs .ebx
  bytes : ∀ x : UInt32, (x - frame).toNat < 68 → c'.mem x = c.mem x

section Table

variable {flags : Flags} {code : UInt32 → List Instr} {isr irq : ℕ → UInt32} {idt : UInt32} {c : Cpu}
  {errCode : Option UInt32} {v : ℕ}

theorem StubsLinked.take (h : StubsLinked code isr irq idt c.mem) (handler : Cpu → Cpu)
    (errCode : Option UInt32) (hv : v < 48) :
    takeInterrupt flags code handler idt v errCode c =
      some (interrupted flags handler (vectorStub v) errCode c) := by
  obtain ⟨m₀, hm₀⟩ := h.table
  have hgate := hm₀ v (by omega)
  unfold takeInterrupt vectorStub
  by_cases h32 : v < 32
  · rw [hgate, idtGate_isr isr irq m₀ h32, if_pos h32, ← h.isrs v h32]
    rfl
  · have hirq' := @idtGate_irq idt isr irq m₀ (v - 32) (by omega)
    rw [show 32 + (v - 32) = v by omega] at hirq'
    rw [hgate, hirq', if_neg h32, ← h.irqs (v - 32) (by omega)]
    rfl

/-- The stub of a vector pushes 0 for the error code that the CPU has not pushed. -/
theorem pushes_vectorStub (hv : v < 48) (herr : errCode.isSome ↔ v ∈ errorStubs) :
    Pushes (UInt32.ofNat v) errCode (errCode.getD 0) (vectorStub v) := by
  unfold vectorStub
  cases errCode with
  | none =>
    have hstub : v ∉ errorStubs := fun hmem => by simpa using herr.2 hmem
    by_cases h32 : v < 32
    · rw [if_pos h32, isrEntry, if_neg hstub]
      exact .without
    · rw [if_neg h32, irqStub, show v - 32 + 32 = v by omega]
      exact .without
  | some e =>
    have hstub : v ∈ errorStubs := herr.1 rfl
    have h32 : v < 32 := by
      have : ∀ n ∈ errorStubs, n < 32 := by decide
      exact this v hstub
    rw [if_pos h32, isrEntry, if_pos hstub]
    exact .given e

/-- **An interrupt is invisible.**  Through any of the 48 vectors, if the CPU pushes an error code for
just those whose stub counts on one, and the handler keeps to the rules for a C function, the
interrupted code goes on as it was: all its registers, segments and flags, and its stack.  What the
handler was handed is the interrupted memory, up to 88 bytes below the stack pointer. -/
theorem interrupt_returns (h : StubsLinked code isr irq idt c.mem) (hv : v < 48)
    (herr : errCode.isSome ↔ v ∈ errorStubs) (handler : Cpu → Cpu)
    (hkeeps : KeepsFrame (frameAddr c) (atHandler flags (vectorStub v) errCode c)
      (handler (atHandler flags (vectorStub v) errCode c))) :
    takeInterrupt flags code handler idt v errCode c = some { c with
      mem := (handler (atHandler flags (vectorStub v) errCode c)).mem
      ctrl := fun k => if k = .cr2 then c.ctrl .cr2
        else (handler (atHandler flags (vectorStub v) errCode c)).ctrl k } ∧
    SameBut c.mem (atHandler flags (vectorStub v) errCode c).mem (c.regs .esp - 88) 88 := by
  obtain ⟨hebx, -, -, hframe, hsame⟩ :=
    atHandler_frame flags c (pushes_vectorStub hv herr)
  rw [h.take handler errCode hv]
  have hbx := hkeeps.ebx.trans hebx
  have hheld := hframe.of_bytes (by show 4 * 17 ≤ 2 ^ 32; decide) hkeeps.bytes
  rw [← hbx] at hheld
  exact ⟨congrArg some (run_interruptRestore hheld hbx), hsame⟩

/-- The words that the CPU and the stub push, of which the return takes five off. -/
theorem entered_esp (flags : Flags) (errCode : Option UInt32) (v : ℕ) (c : Cpu) :
    (run flags (vectorStub v) (cpuInterrupt 0x08 errCode c)).regs .esp = c.regs .esp - 20 +
      (if v ∈ errorStubs then 4 else 0) - (if errCode.isSome then 4 else 0) := by
  have hcpu : (cpuInterrupt 0x08 errCode c).regs .esp =
      c.regs .esp - 12 - (if errCode.isSome then 4 else 0) := by
    cases errCode with
    | none =>
      show c.regs .esp - 4 - 4 - 4 = c.regs .esp - 12 - 0
      grind
    | some code =>
      show c.regs .esp - 4 - 4 - 4 - 4 = c.regs .esp - 12 - 4
      grind
  by_cases hmem : v ∈ errorStubs
  · have h32 : v < 32 := by
      have hall : ∀ n ∈ errorStubs, n < 32 := by decide
      exact hall v hmem
    rw [vectorStub, if_pos h32, isrEntry, if_pos hmem, if_pos hmem]
    show (cpuInterrupt 0x08 errCode c).regs .esp - 4 = _
    rw [hcpu]
    grind
  · rw [if_neg hmem]
    have hstub : (run flags (vectorStub v) (cpuInterrupt 0x08 errCode c)).regs .esp =
        (cpuInterrupt 0x08 errCode c).regs .esp - 4 - 4 := by
      unfold vectorStub isrEntry
      rw [if_neg hmem]
      by_cases h32 : v < 32
      · rw [if_pos h32]
        rfl
      · rw [if_neg h32]
        rfl
    rw [hstub, hcpu]
    grind

/-- The code that is returned to has its stack back exactly if the stub is right about the error
code. -/
theorem interrupt_esp_iff (h : StubsLinked code isr irq idt c.mem) (hv : v < 48) (handler : Cpu → Cpu)
    (hebx : (handler (atHandler flags (vectorStub v) errCode c)).regs .ebx =
      (atHandler flags (vectorStub v) errCode c).regs .ebx) :
    (∃ t, takeInterrupt flags code handler idt v errCode c = some t ∧ t.regs .esp = c.regs .esp) ↔
      (errCode.isSome ↔ v ∈ errorStubs) := by
  have hesp : (interrupted flags handler (vectorStub v) errCode c).regs .esp = c.regs .esp +
      (if v ∈ errorStubs then 4 else 0) - (if errCode.isSome then 4 else 0) := by
    have hpop : (interrupted flags handler (vectorStub v) errCode c).regs .esp =
      pastSaved ((handler (atHandler flags (vectorStub v) errCode c)).regs .ebx) + 8 + 4 + 4 + 4 := rfl
    obtain ⟨hbx, -, -⟩ := interruptSave_eq flags (run flags (vectorStub v) (cpuInterrupt 0x08 errCode c))
    rw [← run_append] at hbx
    rw [hpop, hebx, atHandler, hbx, pushWords_esp, entered_esp, pastSaved_eq]
    show _ - 4 * 12 + 48 + 8 + 4 + 4 + 4 = _
    grind
  rw [h.take handler errCode hv]
  constructor
  · rintro ⟨t, ht, hsame⟩
    cases Option.some.inj ht
    rw [hesp] at hsame
    by_cases hmem : v ∈ errorStubs <;> by_cases herr : errCode.isSome
    · exact iff_of_true herr hmem
    · rw [if_pos hmem, if_neg herr] at hsame
      grind
    · rw [if_neg hmem, if_pos herr] at hsame
      grind
    · exact iff_of_false herr hmem
  · intro herr
    refine ⟨_, rfl, ?_⟩
    rw [hesp]
    by_cases hmem : v ∈ errorStubs
    · rw [if_pos hmem, if_pos (herr.2 hmem)]
      grind
    · rw [if_neg hmem, if_neg (fun h => hmem (herr.1 h))]
      grind

end Table

/-- Entry points at the first addresses, in their order. -/
def someCode (a : UInt32) : List Instr :=
  if a.toNat < 32 then isrEntry a.toNat else irqStub (a.toNat - 32)

def someCpu : Cpu where
  regs := fun _ => 0x9000
  segs := fun _ => 0x10
  ctrl := fun _ => 0
  cs := 8
  eip := 0x1234
  eflags := 0x202
  mem := idtInitialize 0x5000 UInt32.ofNat (fun n => UInt32.ofNat (n + 32)) fun _ => 0

theorem stubsLinked_someCode : StubsLinked someCode UInt32.ofNat (fun n => UInt32.ofNat (n + 32)) 0x5000
    someCpu.mem where
  isrs := by decide
  irqs := by decide
  table := ⟨fun _ => 0, fun _ _ => rfl⟩

theorem interrupt_returns_timer : (takeInterrupt (fun _ _ _ fl => fl) someCode id 0x5000 32 none
    someCpu).isSome = true := by
  rw [(interrupt_returns stubsLinked_someCode (by decide) (by decide) id ⟨rfl, fun _ _ => rfl⟩).1]
  rfl

theorem interrupt_esp_iff_alignment :
    ¬ ∃ t, takeInterrupt (fun _ _ _ fl => fl) someCode id 0x5000 17 (some 0) someCpu = some t ∧
      t.regs .esp = someCpu.regs .esp :=
  fun h => absurd ((interrupt_esp_iff stubsLinked_someCode (by decide) id rfl).1 h) (by decide)

/-! ### What the handler sees -/

/-- `struct interrupt_context`, as the C code lays it out. -/
@[ext] structure InterruptContext where
  cr2 : UInt32
  gs : UInt32
  fs : UInt32
  ds : UInt32
  es : UInt32
  edi : UInt32
  esi : UInt32
  ebp : UInt32
  ebx : UInt32
  edx : UInt32
  ecx : UInt32
  eax : UInt32
  intNo : UInt32
  errCode : UInt32
  cs : UInt32
  eflags : UInt32
  esp : UInt32
  ss : UInt32
  deriving DecidableEq, Repr

def readContext (m : Mem) (p : UInt32) : InterruptContext where
  cr2 := read32 m p
  gs := read32 m (p + 4)
  fs := read32 m (p + 8)
  ds := read32 m (p + 12)
  es := read32 m (p + 16)
  edi := read32 m (p + 20)
  esi := read32 m (p + 24)
  ebp := read32 m (p + 28)
  ebx := read32 m (p + 32)
  edx := read32 m (p + 36)
  ecx := read32 m (p + 40)
  eax := read32 m (p + 44)
  intNo := read32 m (p + 48)
  errCode := read32 m (p + 52)
  cs := read32 m (p + 56)
  eflags := read32 m (p + 60)
  esp := read32 m (p + 64)
  ss := read32 m (p + 68)

/-- **The context.**  `interrupt_handler` is called with the address of a context that has the number,
the error code or 0, and the interrupted registers.  But `ds` and `es` have each other's place, and the
struct has no field for `eip`: that is in `cs`, `cs` is in `eflags`, the flags are in `esp`, and `ss` is
the word on top of the interrupted stack. -/
theorem context_at_handler (flags : Flags) (c : Cpu) {errCode : Option UInt32} {v : ℕ} (hv : v < 48)
    (herr : errCode.isSome ↔ v ∈ errorStubs) :
    readContext (atHandler flags (vectorStub v) errCode c).mem
        (read32 (atHandler flags (vectorStub v) errCode c).mem
          ((atHandler flags (vectorStub v) errCode c).regs .esp)) =
      { cr2 := c.ctrl .cr2
        gs := (c.segs .gs).toUInt32
        fs := (c.segs .fs).toUInt32
        ds := (c.segs .es).toUInt32
        es := (c.segs .ds).toUInt32
        edi := c.regs .edi
        esi := c.regs .esi
        ebp := c.regs .ebp
        ebx := c.regs .ebx
        edx := c.regs .edx
        ecx := c.regs .ecx
        eax := c.regs .eax
        intNo := UInt32.ofNat v
        errCode := errCode.getD 0
        cs := c.eip
        eflags := c.cs.toUInt32
        esp := c.eflags
        ss := read32 c.mem (c.regs .esp) } := by
  obtain ⟨-, hesp, hargument, hframe, hsame⟩ :=
    atHandler_frame flags c (pushes_vectorStub hv herr)
  rw [hesp, hargument]
  have hword : ∀ i (hi : i < 17), read32 (atHandler flags (vectorStub v) errCode c).mem
      (frameAddr c + 4 * UInt32.ofNat i) =
        (frame (UInt32.ofNat v) (errCode.getD 0) c).get ⟨i, hi⟩ := fun i hi => hframe.read hi
  have hss : read32 (atHandler flags (vectorStub v) errCode c).mem (frameAddr c + 68) =
      read32 c.mem (c.regs .esp) := by
    rw [show frameAddr c + 68 = c.regs .esp by unfold frameAddr; grind]
    refine read32_of_apart hsame ⟨?_, ?_⟩
    · rw [show c.regs .esp - (c.regs .esp - 88) = 88 by grind]
      exact le_refl 88
    · rw [show c.regs .esp - 88 - c.regs .esp = 0xFFFFFFA8 by grind]
      decide
  apply InterruptContext.ext
  · exact hframe.1
  · exact hword 1 (by decide)
  · exact hword 2 (by decide)
  · exact hword 3 (by decide)
  · exact hword 4 (by decide)
  · exact hword 5 (by decide)
  · exact hword 6 (by decide)
  · exact hword 7 (by decide)
  · exact hword 8 (by decide)
  · exact hword 9 (by decide)
  · exact hword 10 (by decide)
  · exact hword 11 (by decide)
  · exact hword 12 (by decide)
  · exact hword 13 (by decide)
  · exact hword 14 (by decide)
  · exact hword 15 (by decide)
  · exact hword 16 (by decide)
  · exact hss

/-- A page fault at 0x1234: the address is in `cs`. -/
theorem context_at_handler_page :
    (readContext (atHandler (fun _ _ _ fl => fl) (vectorStub 14) (some 2) someCpu).mem
      (read32 (atHandler (fun _ _ _ fl => fl) (vectorStub 14) (some 2) someCpu).mem
        ((atHandler (fun _ _ _ fl => fl) (vectorStub 14) (some 2) someCpu).regs .esp))).cs = 0x1234 := by
  rw [context_at_handler (fun _ _ _ fl => fl) someCpu (by decide) (by decide)]
  rfl

end CometOS
