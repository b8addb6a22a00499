import CometOS.Lib.X86
import CometOS.Lib.Run

/-!
# Switching between tasks (`arch/i386/task/switch.s`)

`switchTask` is called with two addresses: it saves the caller's registers at the first, eleven words,
and takes another task's from the second.  So it returns in the other task, and in its caller when that
is switched to again.

The page directory is another matter.  `cr3` is saved as the eleventh word, at 40, and loaded from 44:
from whatever follows the record.  What memory that directory shows is up to it; only the code, the
tasks' stacks and their records have to be mapped as they were, since `switchTask` is still at work on
them.
-/

namespace CometOS

open ByteMemory X86 X86.Cpu

/-! ### The code -/

/-- Everything on the stack, and `eax` the address to save to. -/
def switchPush : List Instr :=
  [.pusha, .pushf, .fromCtrl .eax .cr3, .push .eax, .load .eax .esp 44]

/-- The registers that still have their values. -/
def switchStoreRegs : List Instr :=
  [.store .eax 4 .ebx, .store .eax 8 .ecx, .store .eax 12 .edx, .store .eax 16 .esi,
    .store .eax 20 .edi]

/-- What is left on the stack, and where it goes. -/
def switchFetch : List Instr :=
  [.load .ebx .esp 36, .load .ecx .esp 40, .load .edx .esp 20, .alu .add .edx 4,
    .load .esi .esp 16, .load .edi .esp 4]

def switchStoreStack : List Instr :=
  [.store .eax 0 .ebx, .store .eax 24 .edx, .store .eax 28 .esi, .store .eax 32 .ecx,
    .store .eax 36 .edi]

def switchStoreCr3 : List Instr :=
  [.pop .ebx, .store .eax 40 .ebx, .push .ebx]

/-- The other task's registers. -/
def switchLoadRegs : List Instr :=
  [.load .eax .esp 48,
    .load .ebx .eax 4, .load .ecx .eax 8, .load .edx .eax 12, .load .esi .eax 16,
    .load .edi .eax 20, .load .ebp .eax 28]

def switchLoadFlags : List Instr :=
  [.push .eax, .load .eax .eax 36, .push .eax, .popf, .pop .eax]

/-- Its stack, and `cr3`. -/
def switchLoadStack : List Instr :=
  [.load .esp .eax 24, .push .eax, .load .eax .eax 44, .toCtrl .cr3 .eax, .pop .eax]

def switchReturn : List Instr :=
  [.push .eax, .load .eax .eax 32, .xchgTop .eax, .load .eax .eax 0, .ret]

def switchSave : List Instr :=
  switchPush ++ (switchStoreRegs ++ (switchFetch ++ (switchStoreStack ++ switchStoreCr3)))

def switchLoad : List Instr :=
  switchLoadRegs ++ (switchLoadFlags ++ (switchLoadStack ++ switchReturn))

def switchTask : List Instr := switchSave ++ switchLoad

/-- The other task's stack and page directory. -/
def switchSetStack : List Instr :=
  [.load .esp .eax 24, .push .eax, .load .eax .eax 44, .toCtrl .cr3 .eax]

/-- All that comes before the directory is changed, and all that comes after. -/
def switchEnter : List Instr :=
  switchSave ++ (switchLoadRegs ++ (switchLoadFlags ++ switchSetStack))

def switchLeave : List Instr := .pop .eax :: switchReturn

theorem switchTask_eq : switchTask = switchEnter ++ switchLeave := rfl

/-- `switchTask`, where `shown` makes of the memory seen before `cr3` is loaded the memory seen after. -/
def switchThrough (flags : Flags) (shown : Mem → Mem) (c : Cpu) : Cpu :=
  let d := run flags switchEnter c
  run flags switchLeave { d with mem := shown d.mem }

/-- What is saved of a task that calls `switchTask`: its registers as they are after the return, where
that goes on, its flags and its `cr3`. -/
def savedContext (c : Cpu) : List UInt32 :=
  [c.regs .eax, c.regs .ebx, c.regs .ecx, c.regs .edx, c.regs .esi, c.regs .edi, c.regs .esp + 4,
    c.regs .ebp, c.top, c.eflags, c.ctrl .cr3]

/-! ### Saving -/

section Save

variable {flags : Flags} {c d : Cpu} {ret old new : UInt32}

/-- The words that are pushed first. -/
def switchWords (c : Cpu) : List UInt32 :=
  [c.regs .eax, c.regs .ecx, c.regs .edx, c.regs .ebx, c.regs .esp, c.regs .ebp, c.regs .esi,
    c.regs .edi, c.eflags, c.ctrl .cr3]

theorem run_switchPush (flags : Flags) (c : Cpu) :
    run flags switchPush c = (pushWords (switchWords c) c).set .eax
      (read32 (pushWords (switchWords c) c).mem ((pushWords (switchWords c) c).regs .esp + 44)) := by
  have hlast : ∀ d : Cpu, run flags [.fromCtrl .eax .cr3, .push .eax, .load .eax .esp 44] d =
      (d.pushWord (d.ctrl .cr3)).set .eax (read32 (d.pushWord (d.ctrl .cr3)).mem
        ((d.pushWord (d.ctrl .cr3)).regs .esp + 44)) := by
    intro d
    apply Cpu.ext
    · funext r
      cases r <;> rfl
    all_goals rfl
  exact hlast _

/-- The words that are stored from the registers. -/
def storedFirst (c : Cpu) : List (UInt32 × UInt32) :=
  [(4, c.regs .ebx), (8, c.regs .ecx), (12, c.regs .edx), (16, c.regs .esi), (20, c.regs .edi)]

theorem run_switchStoreRegs (flags : Flags) (d : Cpu) :
    run flags switchStoreRegs d = { d with mem := storeWords d.mem (d.regs .eax) (storedFirst d) } := by
  apply Cpu.ext
  all_goals rfl

/-- And those that are stored from the stack, whose lowest word is `cr3`. -/
def storedNext (m : Mem) (sp : UInt32) : List (UInt32 × UInt32) :=
  [(0, read32 m (sp + 36)), (24, read32 m (sp + 20) + 4), (28, read32 m (sp + 16)),
    (32, read32 m (sp + 40)), (36, read32 m (sp + 4))]

theorem run_switchStoreStack (flags : Flags) (d : Cpu) :
    (run flags (switchFetch ++ switchStoreStack) d).mem =
      storeWords d.mem (d.regs .eax) (storedNext d.mem (d.regs .esp)) ∧
    (run flags (switchFetch ++ switchStoreStack) d).regs .eax = d.regs .eax ∧
    (run flags (switchFetch ++ switchStoreStack) d).regs .ebp = d.regs .ebp ∧
    (run flags (switchFetch ++ switchStoreStack) d).regs .esp = d.regs .esp ∧
    (run flags (switchFetch ++ switchStoreStack) d).segs = d.segs ∧
    (run flags (switchFetch ++ switchStoreStack) d).ctrl = d.ctrl ∧
    (run flags (switchFetch ++ switchStoreStack) d).cs = d.cs := ⟨rfl, rfl, rfl, rfl, rfl, rfl, rfl⟩

theorem run_switchStoreCr3 (flags : Flags) (d : Cpu) :
    (run flags switchStoreCr3 d).mem =
      write32 (write32 d.mem (d.regs .eax + 40) d.top) (d.regs .esp + 4 - 4) d.top ∧
    (run flags switchStoreCr3 d).regs .esp = d.regs .esp + 4 - 4 ∧
    (run flags switchStoreCr3 d).segs = d.segs ∧ (run flags switchStoreCr3 d).ctrl = d.ctrl ∧
    (run flags switchStoreCr3 d).cs = d.cs := ⟨rfl, rfl, rfl, rfl, rfl⟩

/-- The stack while `switchTask` saves. -/
def switchStack (c : Cpu) (ret old new : UInt32) : List UInt32 :=
  [c.ctrl .cr3, c.eflags, c.regs .edi, c.regs .esi, c.regs .ebp, c.regs .esp, c.regs .ebx,
    c.regs .edx, c.regs .ecx, c.regs .eax, ret, old, new]

/-- All that is stored, in its order. -/
def storedFields (c : Cpu) : List (UInt32 × UInt32) :=
  [(4, c.regs .ebx), (8, c.regs .ecx), (12, c.regs .edx), (16, c.regs .esi), (20, c.regs .edi),
    (0, c.regs .eax), (24, c.regs .esp + 4), (28, c.regs .ebp), (32, c.top), (36, c.eflags),
    (40, c.ctrl .cr3)]

theorem pushWords_switchWords (hargs : WordsAt c.mem (c.regs .esp) [ret, old, new]) :
    (pushWords (switchWords c) c).regs .esp = c.regs .esp - 40 ∧
    WordsAt (pushWords (switchWords c) c).mem (c.regs .esp - 40) (switchStack c ret old new) ∧
    SameBut c.mem (pushWords (switchWords c) c).mem (c.regs .esp - 40) 40 := by
  have hesp : (pushWords (switchWords c) c).regs .esp = c.regs .esp - 40 := pushWords_esp _
  have hholds := pushWords_holds (switchWords c) hargs (by show 4 * (10 + 3) ≤ 2 ^ 32; decide)
  have hsame := pushWords_sameBut (c := c) (switchWords c) (SameBut.refl c.mem (c.regs .esp) 0)
    (by show 0 + 4 * 10 ≤ 2 ^ 32; decide)
  rw [hesp] at hholds hsame
  exact ⟨hesp, hholds, hsame⟩

/-- A store to the record leaves the stack. -/
theorem switchStack_store (ws : List (UInt32 × UInt32)) {m : Mem} {sp : UInt32}
    (h : WordsAt m sp (switchStack c ret old new)) (hapart : Apart old 44 sp 52)
    (hws : ∀ o ∈ ws.map Prod.fst, o.toNat + 4 ≤ 44) :
    WordsAt (storeWords m old ws) sp (switchStack c ret old new) :=
  h.of_sameBut (storeWords_sameBut ws hws) hapart

/-- The state once the registers are stored. -/
theorem run_switchPush_store (flags : Flags) (hargs : WordsAt c.mem (c.regs .esp) [ret, old, new])
    (hd : d = run flags switchStoreRegs (run flags switchPush c)) :
    d.mem = storeWords (pushWords (switchWords c) c).mem old (storedFirst c) ∧ d.regs .eax = old ∧
      d.regs .esp = c.regs .esp - 40 ∧ d.segs = c.segs ∧ d.ctrl = c.ctrl ∧ d.cs = c.cs := by
  obtain ⟨hesp, hstack, -⟩ := pushWords_switchWords hargs
  obtain ⟨hregs, hsegs, hctrl, hcs, -⟩ := pushWords_rest (switchWords c) c
  have hpush := run_switchPush flags c
  -- only these facts about the pushed words are needed
  generalize pushWords (switchWords c) c = p at *
  have hold : read32 p.mem (c.regs .esp - 40 + 44) = old :=
    hstack.read (i := 11) (by show 11 < 13; decide)
  rw [hesp, hold] at hpush
  have hfirst : storedFirst (p.set .eax old) = storedFirst c := by
    show [(4, p.regs .ebx), (8, p.regs .ecx), (12, p.regs .edx), (16, p.regs .esi),
      (20, p.regs .edi)] = _
    rw [hregs .ebx (by decide), hregs .ecx (by decide), hregs .edx (by decide),
      hregs .esi (by decide), hregs .edi (by decide)]
    rfl
  rw [hpush, run_switchStoreRegs, hfirst] at hd
  subst hd
  exact ⟨rfl, rfl, hesp, hsegs, hctrl, hcs⟩

/-- The words that are stored from the stack. -/
theorem storedNext_eq {m : Mem} {sp : UInt32} (h : WordsAt m sp (switchStack c ret old new))
    (htop : c.top = ret) : storedNext m sp =
      [(0, c.regs .eax), (24, c.regs .esp + 4), (28, c.regs .ebp), (32, c.top), (36, c.eflags)] := by
  have heax : read32 m (sp + 36) = c.regs .eax := h.read (i := 9) (by show 9 < 13; decide)
  have hsp : read32 m (sp + 20) = c.regs .esp := h.read (i := 5) (by show 5 < 13; decide)
  have hbp : read32 m (sp + 16) = c.regs .ebp := h.read (i := 4) (by show 4 < 13; decide)
  have hret : read32 m (sp + 40) = ret := h.read (i := 10) (by show 10 < 13; decide)
  have hfl : read32 m (sp + 4) = c.eflags := h.read (i := 1) (by show 1 < 13; decide)
  rw [storedNext, heax, hsp, hbp, hret, hfl, htop]

/-- What the first half does: eleven words stored, and the last of them pushed once more. -/
theorem run_switchSave (flags : Flags) (hargs : WordsAt c.mem (c.regs .esp) [ret, old, new])
    (hapart : Apart old 44 (c.regs .esp - 40) 52) :
    (run flags switchSave c).mem = write32
      (storeWords (pushWords (switchWords c) c).mem old (storedFields c)) (c.regs .esp - 40)
        (c.ctrl .cr3) ∧
    (run flags switchSave c).regs .esp = c.regs .esp - 40 ∧
    (run flags switchSave c).segs = c.segs ∧ (run flags switchSave c).ctrl = c.ctrl ∧
    (run flags switchSave c).cs = c.cs := by
  obtain ⟨-, hstack, -⟩ := pushWords_switchWords hargs
  have hrun : run flags switchSave c = run flags switchStoreCr3
      (run flags (switchFetch ++ switchStoreStack)
        (run flags switchStoreRegs (run flags switchPush c))) := by
    simp only [switchSave, run_append]
  obtain ⟨d, hd⟩ : ∃ d, d = run flags switchStoreRegs (run flags switchPush c) := ⟨_, rfl⟩
  rw [hrun, ← hd]
  obtain ⟨hmem, heax, hesp, hsegs, hctrl, hcs⟩ := run_switchPush_store flags hargs hd
  -- the stack is the same after each of the stores
  have hstack1 := switchStack_store (storedFirst c) hstack hapart
    (by show ∀ o ∈ [(4 : UInt32), 8, 12, 16, 20], o.toNat + 4 ≤ 44; simp)
  rw [← hmem] at hstack1
  have hstack2 := switchStack_store (storedNext d.mem (c.regs .esp - 40)) hstack1 hapart
    (by show ∀ o ∈ [(0 : UInt32), 24, 28, 32, 36], o.toNat + 4 ≤ 44; simp)
  obtain ⟨hmem', heax', -, hesp', hsegs', hctrl', hcs'⟩ := run_switchStoreStack flags d
  obtain ⟨hmem'', hesp'', hsegs'', hctrl'', hcs''⟩ := run_switchStoreCr3 flags
    (run flags (switchFetch ++ switchStoreStack) d)
  rw [heax, hesp] at hmem'
  have htop : (run flags (switchFetch ++ switchStoreStack) d).top = c.ctrl .cr3 := by
    rw [Cpu.top, hmem', hesp', hesp]
    exact hstack2.1
  have hback : c.regs .esp - 40 + 4 - 4 = c.regs .esp - 40 := UInt32.add_sub_cancel _ _
  rw [htop, heax', heax, hesp', hesp, hmem', storedNext_eq hstack1 hargs.1, hback, hmem] at hmem''
  refine ⟨?_, ?_, hsegs''.trans (hsegs'.trans hsegs), hctrl''.trans (hctrl'.trans hctrl),
    hcs''.trans (hcs'.trans hcs)⟩
  · rw [hmem'']
    exact congrArg (fun m => write32 m (c.regs .esp - 40) (c.ctrl .cr3))
      (storeWords_append _ old (storedFirst c) [(0, c.regs .eax), (24, c.regs .esp + 4),
        (28, c.regs .ebp), (32, c.top), (36, c.eflags), (40, c.ctrl .cr3)]).symm
  · rw [hesp'', hesp', hesp, hback]

/-- **Saving.**  The caller's context is stored, and nothing else changed but ten words below its stack
pointer; the other task's address is still where the rest looks for it. -/
theorem switchSave_spec (flags : Flags) (hargs : WordsAt c.mem (c.regs .esp) [ret, old, new])
    (hapart : Apart old 44 (c.regs .esp - 40) 52) :
    WordsAt (run flags switchSave c).mem old (savedContext c) ∧
    read32 (run flags switchSave c).mem (c.regs .esp - 40 + 48) = new ∧
    ∀ x : UInt32, 40 ≤ (x - (c.regs .esp - 40)).toNat → 44 ≤ (x - old).toNat →
      (run flags switchSave c).mem x = c.mem x := by
  obtain ⟨-, hstack, hsame⟩ := pushWords_switchWords hargs
  obtain ⟨hmem, -⟩ := run_switchSave flags hargs hapart
  have hfields : ∀ o ∈ (storedFields c).map Prod.fst, o.toNat + 4 ≤ 44 := by
    show ∀ o ∈ [(4 : UInt32), 8, 12, 16, 20, 0, 24, 28, 32, 36, 40], o.toNat + 4 ≤ 44
    simp
  have hdistinct : ((storedFields c).map Prod.fst).Pairwise fun o o' => Apart o 4 o' 4 := by
    show [(4 : UInt32), 8, 12, 16, 20, 0, 24, 28, 32, 36, 40].Pairwise fun o o' => Apart o 4 o' 4
    decide
  have hstored := switchStack_store (storedFields c) hstack hapart hfields
  rw [hmem]
  refine ⟨?_, ?_, ?_⟩
  · refine WordsAt.of_sameBut (a := c.regs .esp - 40) (n := 4) ?_
      (fun x hx => write32_of_far _ _ _ hx) (hapart.mono le_rfl (by decide)).symm
    refine WordsAt.of_read fun i hi => read32_storeWords (storedFields c) hdistinct ?_
    have hi' : i < 11 := hi
    interval_cases i <;> simp [savedContext, storedFields]
  · have hslot : Apart (c.regs .esp - 40) 4 (c.regs .esp - 40 + 48) 4 := by
      have hadd := (apart_add (c.regs .esp - 40) (i := 0) (j := 48) (n := 4) (k := 4)).2 (by decide)
      rwa [UInt32.add_zero] at hadd
    rw [read32_write32_of_apart _ _ hslot]
    exact hstored.read (i := 12) (by show 12 < 13; decide)
  · intro x hx hx'
    rw [write32_of_far _ _ _ (by omega), storeWords_sameBut (storedFields c) hfields x hx']
    exact hsame x hx

end Save

/-! ### Loading -/

section Load

variable {d : Cpu} {p : UInt32}

theorem run_switchLoadRegs (flags : Flags) (d : Cpu) (hp : read32 d.mem (d.regs .esp + 48) = p) :
    run flags switchLoadRegs d = { d with
      regs := fun r => match r with
        | .eax => p | .ebx => read32 d.mem (p + 4) | .ecx => read32 d.mem (p + 8)
        | .edx => read32 d.mem (p + 12) | .esi => read32 d.mem (p + 16)
        | .edi => read32 d.mem (p + 20) | .ebp => read32 d.mem (p + 28) | .esp => d.regs .esp } := by
  subst hp
  apply Cpu.ext
  · funext r
    cases r <;> rfl
  all_goals rfl

/-- A field of the other task's record, past a store apart from it. -/
theorem read_field {m : Mem} {a o v : UInt32} (h : Apart p 48 a 4) (ho : o.toNat + 4 ≤ 48) :
    read32 (write32 m a v) (p + o) = read32 m (p + o) := by
  refine read32_write32_of_apart m v (h.within (by decide) ?_).symm
  rw [show p + o - p = o by grind]
  exact ho

/-- A word goes to the flags by way of the stack, and the next one below comes off it. -/
theorem run_switchFlags (flags : Flags) (d : Cpu) {fl : UInt32} (hfl : d.regs .eax = fl) :
    run flags [.push .eax, .popf, .pop .eax] d = { d with
      regs := fun r => if r = .eax then read32 (write32 d.mem (d.regs .esp - 4) fl) (d.regs .esp)
        else if r = .esp then d.regs .esp + 4 else d.regs r
      eflags := fl
      mem := write32 d.mem (d.regs .esp - 4) fl } := by
  subst hfl
  have hesp : d.regs .esp - 4 + 4 = d.regs .esp := sub_four_add _
  apply Cpu.ext
  · funext r
    cases r <;> simp [run, exec, top, hesp]
  · rfl
  · rfl
  · rfl
  · rfl
  · simp [run, exec, top, read32_write32_same]
  · rfl

/-- The flags come back by way of two words below the old stack pointer. -/
theorem run_switchLoadFlags (flags : Flags) (hp : d.regs .eax = p)
    (hroom : Apart p 48 (d.regs .esp - 8) 8) : run flags switchLoadFlags d = { d with
      eflags := read32 d.mem (p + 36)
      mem := write32 (write32 d.mem (d.regs .esp - 4) p) (d.regs .esp - 8)
        (read32 d.mem (p + 36)) } := by
  subst hp
  have hsp : d.regs .esp - 4 - 4 = d.regs .esp - 8 := by grind
  have hapart : Apart (d.regs .eax) 48 (d.regs .esp - 4) 4 := by
    refine (hroom.symm.within (by decide) ?_).symm
    rw [show d.regs .esp - 4 - (d.regs .esp - 8) = 4 by grind]
    decide
  -- the address itself lies above the word for the flags
  have hnext : Apart (d.regs .esp - 8) 4 (d.regs .esp - 4) 4 := by
    unfold Apart
    rw [show d.regs .esp - 4 - (d.regs .esp - 8) = 4 by grind,
      show d.regs .esp - 8 - (d.regs .esp - 4) = 0xFFFFFFFC by grind]
    decide
  obtain ⟨t, ht⟩ : ∃ t, t = run flags [.push .eax, .load .eax .eax 36] d := ⟨_, rfl⟩
  have hmem : t.mem = write32 d.mem (d.regs .esp - 4) (d.regs .eax) := by
    rw [ht]
    rfl
  have hesp : t.regs .esp = d.regs .esp - 4 := by
    rw [ht]
    rfl
  have heax : t.regs .eax = read32 d.mem (d.regs .eax + 36) := by
    have hload : t.regs .eax = read32 t.mem (d.regs .eax + 36) := by
      rw [ht]
      rfl
    rw [hload, hmem]
    exact read_field hapart (by decide)
  have hrun : run flags switchLoadFlags d = run flags [.push .eax, .popf, .pop .eax] t := by
    rw [ht]
    rfl
  rw [hrun, run_switchFlags flags t heax, hesp, hmem, hsp, read32_write32_of_apart _ _ hnext,
    read32_write32_same, sub_four_add]
  apply Cpu.ext
  · funext r
    cases r with
    | eax => rfl
    | esp => rfl
    | _ =>
      rw [ht]
      rfl
  · rw [ht]
    rfl
  · rw [ht]
    rfl
  · rw [ht]
    rfl
  · rw [ht]
    rfl
  · rfl
  · rfl

/-- The stack pointer is the other task's, and below it goes the address of its record. -/
theorem run_switchLoadStack (flags : Flags) (hp : d.regs .eax = p) {sp : UInt32}
    (hsp : read32 d.mem (p + 24) = sp + 4) (hroom : Apart p 48 sp 4) :
    run flags switchLoadStack d = { d with
      regs := fun r => if r = .esp then sp + 4 else d.regs r
      ctrl := fun k => if k = .cr3 then read32 d.mem (p + 44) else d.ctrl k
      mem := write32 d.mem sp p } := by
  subst hp
  have hback : sp + 4 - 4 = sp := UInt32.add_sub_cancel sp 4
  have hmem : (run flags switchLoadStack d).mem =
      write32 d.mem (read32 d.mem (d.regs .eax + 24) - 4) (d.regs .eax) := rfl
  rw [hsp, hback] at hmem
  apply Cpu.ext
  · funext r
    cases r with
    | eax =>
      show read32 (run flags switchLoadStack d).mem (read32 d.mem (d.regs .eax + 24) - 4) = d.regs .eax
      rw [hmem, hsp, hback]
      exact read32_write32_same _ _ _
    | esp =>
      show read32 d.mem (d.regs .eax + 24) - 4 + 4 = sp + 4
      rw [hsp, hback]
    | ecx => rfl
    | edx => rfl
    | ebx => rfl
    | ebp => rfl
    | esi => rfl
    | edi => rfl
  · rfl
  · funext k
    cases k with
    | cr2 => rfl
    | cr3 =>
      show read32 (run flags switchLoadStack d).mem (d.regs .eax + 44) = read32 d.mem (d.regs .eax + 44)
      rw [hmem]
      exact read_field hroom (by decide)
  · rfl
  · rfl
  · rfl
  · exact hmem

/-- The way out: the return address takes the record's place on the stack. -/
theorem run_switchExchange (flags : Flags) (hp : d.top = p) {sp ip : UInt32}
    (hsp : d.regs .esp = sp) (hip : d.regs .eax = ip) (hroom : Apart p 48 sp 4) :
    run flags [.xchgTop .eax, .load .eax .eax 0, .ret] d = { d with
      regs := fun r => if r = .eax then read32 d.mem p else if r = .esp then sp + 4 else d.regs r
      eip := ip
      mem := write32 d.mem sp ip } := by
  subst hp hsp hip
  have hfirst := read_field (m := d.mem) (o := 0) (v := d.regs .eax) hroom (by decide)
  rw [UInt32.add_zero] at hfirst
  have heax : (run flags [.xchgTop .eax, .load .eax .eax 0, .ret] d).regs .eax =
      read32 (write32 d.mem (d.regs .esp) (d.regs .eax)) (d.top + 0) := rfl
  have heip : (run flags [.xchgTop .eax, .load .eax .eax 0, .ret] d).eip =
      read32 (write32 d.mem (d.regs .esp) (d.regs .eax)) (d.regs .esp) := rfl
  rw [UInt32.add_zero, hfirst] at heax
  rw [read32_write32_same] at heip
  apply Cpu.ext
  · funext r
    cases r with
    | eax => exact heax
    | _ => rfl
  · rfl
  · rfl
  · rfl
  · exact heip
  · rfl
  · rfl

theorem run_switchReturn (flags : Flags) (hp : d.regs .eax = p) {sp : UInt32}
    (hsp : d.regs .esp = sp + 4) (hroom : Apart p 48 sp 4) : run flags switchReturn d = { d with
      regs := fun r => if r = .eax then read32 d.mem p else d.regs r
      eip := read32 d.mem (p + 32)
      mem := write32 d.mem sp (read32 d.mem (p + 32)) } := by
  subst hp
  have hback : d.regs .esp - 4 = sp := by rw [hsp, UInt32.add_sub_cancel]
  obtain ⟨t, ht⟩ : ∃ t, t = run flags [.push .eax, .load .eax .eax 32] d := ⟨_, rfl⟩
  have hmem : t.mem = write32 d.mem sp (d.regs .eax) := by
    rw [ht, ← hback]
    rfl
  have hesp : t.regs .esp = sp := by
    rw [ht, ← hback]
    rfl
  have htop : t.top = d.regs .eax := by
    rw [Cpu.top, hmem, hesp, read32_write32_same]
  have heax : t.regs .eax = read32 d.mem (d.regs .eax + 32) := by
    have hload : t.regs .eax = read32 t.mem (d.regs .eax + 32) := by
      rw [ht]
      rfl
    rw [hload, hmem]
    exact read_field hroom (by decide)
  have hfirst := read_field (m := d.mem) (o := 0) (v := d.regs .eax) hroom (by decide)
  rw [UInt32.add_zero] at hfirst
  have hrun : run flags switchReturn d =
      run flags [.xchgTop .eax, .load .eax .eax 0, .ret] t := by rw [ht]; rfl
  rw [hrun, run_switchExchange flags htop hesp heax hroom, hmem, hfirst, write32_write32]
  apply Cpu.ext
  · funext r
    cases r with
    | esp =>
      show sp + 4 = d.regs .esp
      rw [hsp]
    | eax => rfl
    | _ =>
      rw [ht]
      rfl
  · rw [ht]
    rfl
  · rw [ht]
    rfl
  · rw [ht]
    rfl
  · rfl
  · rw [ht]
    rfl
  · rfl

/-- The stack on which the directory is changed. -/
theorem run_switchSetStack (flags : Flags) (hp : d.regs .eax = p) {sp : UInt32}
    (hsp : read32 d.mem (p + 24) = sp + 4) :
    (run flags switchSetStack d).regs .esp = sp ∧ (run flags switchSetStack d).top = p := by
  subst hp
  have hback : sp + 4 - 4 = sp := UInt32.add_sub_cancel sp 4
  have hesp : (run flags switchSetStack d).regs .esp = read32 d.mem (d.regs .eax + 24) - 4 := rfl
  have hmem : (run flags switchSetStack d).mem =
      write32 d.mem (read32 d.mem (d.regs .eax + 24) - 4) (d.regs .eax) := rfl
  rw [hsp, hback] at hesp hmem
  rw [Cpu.top, hesp, hmem]
  exact ⟨rfl, read32_write32_same _ _ _⟩

/-- **After the directory is changed**: only the record and the top of the stack are looked at, and only
the return address is stored. -/
theorem run_switchLeave (flags : Flags) {sp : UInt32} (hsp : d.regs .esp = sp) (hp : d.top = p)
    (hroom : Apart p 48 sp 4) {m : Mem} (hrecord : ∀ x : UInt32, (x - p).toNat < 48 → m x = d.mem x)
    (hstack : ∀ x : UInt32, (x - sp).toNat < 4 → m x = d.mem x) :
    run flags switchLeave { d with mem := m } = { run flags switchLeave d with
      mem := write32 m sp (read32 d.mem (p + 32)) } ∧
    (run flags switchLeave d).mem = write32 d.mem sp (read32 d.mem (p + 32)) := by
  have hfield : ∀ o : UInt32, o.toNat + 4 ≤ 48 → read32 m (p + o) = read32 d.mem (p + o) := by
    intro o ho
    refine read32_congr fun k hk => hrecord _ ?_
    rw [show p + o + k - p = o + k by grind, Word32.toNat_add_of_lt (by omega)]
    omega
  have hfirst := hfield 0 (by decide)
  rw [UInt32.add_zero] at hfirst
  have htop : read32 m sp = p := by
    rw [← hp, Cpu.top, hsp]
    refine read32_congr fun k hk => hstack _ ?_
    rw [show sp + k - sp = k by grind]
    exact hk
  have hpop : ∀ e : Cpu, e.top = p → e.regs .esp = sp → run flags switchLeave e =
      { (e.dropWord.set .eax p) with
        regs := fun r => if r = .eax then read32 e.mem p else (e.dropWord.set .eax p).regs r
        eip := read32 e.mem (p + 32)
        mem := write32 e.mem sp (read32 e.mem (p + 32)) } := by
    intro e htop hesp
    have hrun : run flags switchLeave e = run flags switchReturn (e.dropWord.set .eax p) := by
      rw [← htop]
      rfl
    rw [hrun, run_switchReturn flags rfl (by rw [← hesp]; rfl) hroom]
    rfl
  rw [hpop d hp hsp, hpop { d with mem := m } (by rw [← htop, ← hsp]; rfl) hsp, hfirst,
    hfield 32 (by decide)]
  exact ⟨rfl, rfl⟩

/-- The registers and the flags are the other task's, and the record is as it was. -/
theorem run_switchLoadContext (flags : Flags) {j : Cpu} (hp : read32 d.mem (d.regs .esp + 48) = p)
    (hheld : WordsAt d.mem p (savedContext j)) (hroom : Apart p 48 (d.regs .esp - 8) 8) :
    run flags switchLoadFlags (run flags switchLoadRegs d) = { run flags switchLoadRegs d with
      eflags := j.eflags
      mem := write32 (write32 d.mem (d.regs .esp - 4) p) (d.regs .esp - 8) j.eflags } ∧
    ∀ o : UInt32, o.toNat + 4 ≤ 48 → read32 (write32 (write32 d.mem (d.regs .esp - 4) p)
      (d.regs .esp - 8) j.eflags) (p + o) = read32 d.mem (p + o) := by
  have hfour : Apart p 48 (d.regs .esp - 4) 4 := by
    refine (hroom.symm.within (by decide) ?_).symm
    rw [show d.regs .esp - 4 - (d.regs .esp - 8) = 4 by grind]
    decide
  have height : Apart p 48 (d.regs .esp - 8) 4 := hroom.mono le_rfl (by decide)
  have hfl : read32 d.mem (p + 36) = j.eflags := hheld.read (i := 9) (by show 9 < 11; decide)
  rw [run_switchLoadRegs flags d hp, run_switchLoadFlags flags rfl hroom, hfl]
  exact ⟨rfl, fun o ho => (read_field height ho).trans (read_field hfour ho)⟩

/-- **Up to the load of `cr3`** the stack is the other task's, with the address of its record on it. -/
theorem run_switchEnter (flags : Flags) {j : Cpu} (hp : read32 d.mem (d.regs .esp + 48) = p)
    (hheld : WordsAt d.mem p (savedContext j)) (hroom : Apart p 48 (d.regs .esp - 8) 8) :
    (run flags (switchLoadRegs ++ (switchLoadFlags ++ switchSetStack)) d).regs .esp = j.regs .esp ∧
    (run flags (switchLoadRegs ++ (switchLoadFlags ++ switchSetStack)) d).top = p := by
  obtain ⟨hload, hkept⟩ := run_switchLoadContext flags hp hheld hroom
  have hsp : read32 d.mem (p + 24) = j.regs .esp + 4 := hheld.read (i := 6) (by show 6 < 11; decide)
  rw [run_append, run_append, hload]
  refine run_switchSetStack flags ?_ ((hkept 24 (by decide)).trans hsp)
  rw [run_switchLoadRegs flags d hp]

/-- **Loading.**  With another task's record at the address that is looked for, and the return address
on that task's stack, the rest of the code is in that task with all of its registers; only `cr3` comes
from the word after the record.  Nothing is changed but two words below the old stack pointer. -/
theorem run_switchLoad (flags : Flags) {j : Cpu} (hp : read32 d.mem (d.regs .esp + 48) = p)
    (hheld : WordsAt d.mem p (savedContext j)) (hslot : read32 d.mem (j.regs .esp) = j.top)
    (hroom : Apart p 48 (d.regs .esp - 8) 8) (hroom' : Apart p 48 (j.regs .esp) 4)
    (hapart : Apart (d.regs .esp - 8) 8 (j.regs .esp) 4) : run flags switchLoad d = { d with
      regs := fun r => if r = .esp then j.regs .esp + 4 else j.regs r
      ctrl := fun k => if k = .cr3 then read32 d.mem (p + 44) else d.ctrl k
      eip := j.top
      eflags := j.eflags
      mem := write32 (write32 d.mem (d.regs .esp - 4) p) (d.regs .esp - 8) j.eflags } := by
  -- the record is read before and after the two words are stored
  obtain ⟨hload, hkept⟩ := run_switchLoadContext flags hp hheld hroom
  obtain ⟨c₁, hc₁⟩ : ∃ c₁, c₁ = run flags switchLoadRegs d := ⟨_, rfl⟩
  obtain ⟨c₂, hc₂⟩ : ∃ c₂, c₂ = run flags switchLoadFlags c₁ := ⟨_, rfl⟩
  obtain ⟨c₃, hc₃⟩ : ∃ c₃, c₃ = run flags switchLoadStack c₂ := ⟨_, rfl⟩
  have hrun : run flags switchLoad d = run flags switchReturn c₃ := by
    rw [hc₃, hc₂, hc₁]
    simp only [switchLoad, run_append]
  have hsp : read32 d.mem (p + 24) = j.regs .esp + 4 := hheld.read (i := 6) (by show 6 < 11; decide)
  have hip : read32 d.mem (p + 32) = j.top := hheld.read (i := 8) (by show 8 < 11; decide)
  rw [← hc₁] at hload
  rw [hload] at hc₂
  rw [run_switchLoadRegs flags d hp] at hc₁
  have heax₁ : c₁.regs .eax = p := by rw [hc₁]
  have hmem₂ : c₂.mem = write32 (write32 d.mem (d.regs .esp - 4) p) (d.regs .esp - 8) j.eflags := by
    rw [hc₂]
  have heax₂ : c₂.regs .eax = p := by rw [hc₂, heax₁]
  rw [run_switchLoadStack flags heax₂ (by rw [hmem₂, hkept 24 (by decide)]; exact hsp) hroom', hmem₂,
    hkept 44 (by decide)] at hc₃
  have heax₃ : c₃.regs .eax = p := by
    rw [hc₃]
    exact heax₂
  have hesp₃ : c₃.regs .esp = j.regs .esp + 4 := by
    rw [hc₃]
    rfl
  have hmem₃ : c₃.mem = write32 (write32 (write32 d.mem (d.regs .esp - 4) p) (d.regs .esp - 8) j.eflags)
      (j.regs .esp) p := by rw [hc₃]
  have hothers : ∀ r, r ≠ .eax → r ≠ .esp → c₃.regs r = j.regs r := by
    intro r hax hsp
    have hr : c₃.regs r = c₁.regs r := by
      rw [hc₃, hc₂]
      exact if_neg hsp
    rw [hr, hc₁]
    cases r with
    | eax => exact absurd rfl hax
    | esp => exact absurd rfl hsp
    | ebx => exact hheld.read (i := 1) (by show 1 < 11; decide)
    | ecx => exact hheld.read (i := 2) (by show 2 < 11; decide)
    | edx => exact hheld.read (i := 3) (by show 3 < 11; decide)
    | esi => exact hheld.read (i := 4) (by show 4 < 11; decide)
    | edi => exact hheld.read (i := 5) (by show 5 < 11; decide)
    | ebp => exact hheld.read (i := 7) (by show 7 < 11; decide)
  -- the return address is written where it was
  have hnext : Apart (d.regs .esp - 4) 4 (j.regs .esp) 4 := by
    refine hapart.within (by decide) ?_
    rw [show d.regs .esp - 4 - (d.regs .esp - 8) = 4 by grind]
    decide
  have hback : read32 (write32 (write32 d.mem (d.regs .esp - 4) p) (d.regs .esp - 8) j.eflags)
      (j.regs .esp) = j.top := by
    rw [read32_write32_of_apart _ _ (hapart.mono (by decide) le_rfl), read32_write32_of_apart _ _ hnext]
    exact hslot
  have hfirst := read_field (m := write32 (write32 d.mem (d.regs .esp - 4) p) (d.regs .esp - 8) j.eflags)
    (o := 0) (v := p) hroom' (by decide)
  have hax := hkept 0 (by decide)
  rw [UInt32.add_zero] at hfirst hax
  rw [hrun, run_switchReturn flags heax₃ hesp₃ hroom', hmem₃, read_field hroom' (by decide),
    hkept 32 (by decide), hip, write32_write32, write32_self hback, hfirst, hax, hheld.1]
  apply Cpu.ext
  · funext r
    cases r with
    | eax => rfl
    | esp => exact hesp₃
    | _ => exact hothers _ (by decide) (by decide)
  · rw [hc₃, hc₂, hc₁]
  · rw [hc₃, hc₂, hc₁]
  · rw [hc₃, hc₂, hc₁]
  · rfl
  · rw [hc₃, hc₂]
  · rfl

end Load

/-! ### The tasks -/

/-- Where the tasks have their records and their stacks: no record or stack overlaps another, but the
word after a record may be the next one's. -/
structure TaskLayout (ι : Type) where
  area : ι → UInt32
  stack : ι → UInt32
  size : ι → ℕ
  areas_apart : ∀ i j, i ≠ j → Apart (area i) 44 (area j) 44
  stacks_apart : ∀ i j, i ≠ j → Apart (stack i) (size i) (stack j) (size j)
  area_stack : ∀ i j, Apart (area i) 48 (stack j) (size j)

/-- The machine, the task that has it, and what the others had when they last called `switchTask`. -/
structure TaskSystem (ι : Type) where
  cpu : Cpu
  current : ι
  left : ι → Cpu

/-- A task does something, or calls for another; then `shown` is what the directory that is loaded shows
of memory. -/
inductive TaskEvent (ι : Type)
  | work (f : Cpu → Cpu)
  | switch (next : ι) (shown : Mem → Mem)

/-- A call of `switchTask` has its arguments and return address on the stack, and room for twelve words
below. -/
def TaskLayout.CanCall {ι : Type} (L : TaskLayout ι) (i : ι) (sp : UInt32) : Prop :=
  48 ≤ (sp - L.stack i).toNat ∧ (sp - L.stack i).toNat + 12 ≤ L.size i

/-- Task `i` waits in the state in which it called `switchTask`: its record is there, and its stack but
for what lies below the stack pointer. -/
structure Suspended {ι : Type} (L : TaskLayout ι) (m : Mem) (i : ι) (d : Cpu) : Prop where
  room : L.CanCall i (d.regs .esp)
  held : WordsAt m (L.area i) (savedContext d)
  stack : ∀ x : UInt32, (x - L.stack i).toNat < L.size i → 48 ≤ (x - (d.regs .esp - 48)).toNat →
    m x = d.mem x

/-- Every task that does not have the machine waits. -/
def OthersSuspended {ι : Type} (L : TaskLayout ι) (s : TaskSystem ι) : Prop :=
  ∀ i, i ≠ s.current → Suspended L s.cpu.mem i (s.left i)

/-- A directory that shows every record and every stack as it was. -/
def TaskLayout.MapsAlike {ι : Type} (L : TaskLayout ι) (shown : Mem → Mem) : Prop :=
  ∀ (m : Mem) (i : ι) (x : UInt32), (x - L.area i).toNat < 48 ∨ (x - L.stack i).toNat < L.size i →
    shown m x = m x

/-- A task leaves the records and the stacks of the others alone, and calls `switchTask` with its own
record and the other's.  The directories map the records and stacks alike. -/
def TaskAllowed {ι : Type} (L : TaskLayout ι) (s : TaskSystem ι) : TaskEvent ι → Prop
  | .work f => ∀ i, i ≠ s.current →
      (∀ x : UInt32, (x - L.area i).toNat < 44 → (f s.cpu).mem x = s.cpu.mem x) ∧
      ∀ x : UInt32, (x - L.stack i).toNat < L.size i → (f s.cpu).mem x = s.cpu.mem x
  | .switch next shown => L.CanCall s.current (s.cpu.regs .esp) ∧
      read32 s.cpu.mem (s.cpu.regs .esp + 4) = L.area s.current ∧
      read32 s.cpu.mem (s.cpu.regs .esp + 8) = L.area next ∧ L.MapsAlike shown

/-- Task `i` has the machine back from state `d`, as on return from the call it made there: its registers
and flags, and its stack.  The `cr3` it had is the last word of its record; the one it gets is the word
behind. -/
structure Returned {ι : Type} (L : TaskLayout ι) (i : ι) (d c : Cpu) : Prop where
  regs : c.regs = fun r => if r = .esp then d.regs .esp + 4 else d.regs r
  eip : c.eip = d.top
  eflags : c.eflags = d.eflags
  stack : ∀ x : UInt32, (x - L.stack i).toNat < L.size i → 48 ≤ (x - (d.regs .esp - 48)).toNat →
    c.mem x = d.mem x
  saved : read32 c.mem (L.area i + 40) = d.ctrl .cr3
  cr3 : c.ctrl .cr3 = read32 c.mem (L.area i + 44)

section Waiting

variable {ι : Type} {L : TaskLayout ι} {s : TaskSystem ι} {d : Cpu} {m m' : Mem} {i j : ι}
  {shown : Mem → Mem}

/-- Part of the stack around a call, `k` bytes from `o` bytes above its lowest word. -/
theorem TaskLayout.CanCall.inside {sp o : UInt32} {k : ℕ} (h : L.CanCall i sp)
    (ho : o.toNat + k ≤ 60) : (sp - 48 + o - L.stack i).toNat + k ≤ L.size i := by
  obtain ⟨hlo, hhi⟩ := h
  have h48 : (48 : UInt32).toNat = 48 := rfl
  have hsub : (sp - 48 - L.stack i).toNat = (sp - L.stack i).toNat - 48 := by
    rw [show sp - 48 - L.stack i = sp - L.stack i - 48 by grind,
      Word32.toNat_sub_of_le (by rw [h48]; exact hlo), h48]
  have hsize := (L.area_stack i i).2
  have hlt := (L.area i - L.stack i).toNat_lt
  rw [show sp - 48 + o - L.stack i = sp - 48 - L.stack i + o by grind,
    Word32.toNat_add_of_lt (by omega), hsub]
  omega

/-- It is apart from what the whole stack is apart from. -/
theorem TaskLayout.CanCall.apart {sp o : UInt32} {k : ℕ} (h : L.CanCall i sp) (hk : 0 < k)
    (ho : o.toNat + k ≤ 60) {a : UInt32} {n : ℕ} (hapart : Apart a n (L.stack i) (L.size i)) :
    Apart a n (sp - 48 + o) k :=
  (hapart.symm.within hk (h.inside ho)).symm

theorem Suspended.of_same (h : Suspended L m i d)
    (harea : ∀ x : UInt32, (x - L.area i).toNat < 44 → m' x = m x)
    (hstack : ∀ x : UInt32, (x - L.stack i).toNat < L.size i → 48 ≤ (x - (d.regs .esp - 48)).toNat →
      m' x = m x) : Suspended L m' i d where
  room := h.room
  held := h.held.of_bytes (by show 4 * 11 ≤ 2 ^ 32; decide) harea
  stack := fun x hx hx' => (hstack x hx hx').trans (h.stack x hx hx')

/-- The return address of a task that waits. -/
theorem Suspended.slot (h : Suspended L m i d) : read32 m (d.regs .esp) = d.top := by
  refine read32_congr fun k hk => h.stack _ ?_ ?_
  · have hin := h.room.inside (o := 48 + k) (k := 1) (by
      rw [Word32.toNat_add_of_lt (by rw [show (48 : UInt32).toNat = 48 from rfl]; omega),
        show (48 : UInt32).toNat = 48 from rfl]
      omega)
    rw [show d.regs .esp - 48 + (48 + k) = d.regs .esp + k by grind] at hin
    omega
  · rw [show d.regs .esp + k - (d.regs .esp - 48) = 48 + k by grind,
      Word32.toNat_add_of_lt (by rw [show (48 : UInt32).toNat = 48 from rfl]; omega)]
    exact Nat.le_add_right 48 _

theorem OthersSuspended.work (h : OthersSuspended L s) {f : Cpu → Cpu}
    (hf : TaskAllowed L s (.work f)) : OthersSuspended L { s with cpu := f s.cpu } := by
  intro i hi
  obtain ⟨harea, hstack⟩ := hf i hi
  exact (h i hi).of_same harea fun x hx _ => hstack x hx

/-- The caller's record is apart from the stack it is saved from. -/
theorem TaskAllowed.saves (flags : Flags) (hcall : TaskAllowed L s (.switch j shown)) :
    WordsAt (run flags switchSave s.cpu).mem (L.area s.current) (savedContext s.cpu) ∧
    read32 (run flags switchSave s.cpu).mem (s.cpu.regs .esp - 40 + 48) = L.area j ∧
    (∀ x : UInt32, 40 ≤ (x - (s.cpu.regs .esp - 40)).toNat → 44 ≤ (x - L.area s.current).toNat →
      (run flags switchSave s.cpu).mem x = s.cpu.mem x) ∧
    (run flags switchSave s.cpu).regs .esp = s.cpu.regs .esp - 40 := by
  obtain ⟨hroom, hold, hnew, -⟩ := hcall
  have hargs : WordsAt s.cpu.mem (s.cpu.regs .esp) [s.cpu.top, L.area s.current, L.area j] := by
    refine ⟨rfl, hold, ?_, trivial⟩
    rw [UInt32.add_assoc]
    exact hnew
  have hapart : Apart (L.area s.current) 44 (s.cpu.regs .esp - 40) 52 := by
    have hpart := hroom.apart (o := 8) (k := 52) (by decide) (by decide)
      (L.area_stack s.current s.current)
    rw [show s.cpu.regs .esp - 48 + 8 = s.cpu.regs .esp - 40 by grind] at hpart
    exact hpart.mono (by decide) le_rfl
  obtain ⟨hheld, hp, hframe⟩ := switchSave_spec flags hargs hapart
  exact ⟨hheld, hp, hframe, (run_switchSave flags hargs hapart).2.1⟩

end Waiting

section Tasks

variable {ι : Type} [DecidableEq ι] {flags : Flags} {L : TaskLayout ι} {s : TaskSystem ι} {j : ι}
  {shown : Mem → Mem}

def TaskSystem.step (flags : Flags) (s : TaskSystem ι) : TaskEvent ι → Option (TaskSystem ι)
  | .work f => some { s with cpu := f s.cpu }
  | .switch next shown => some {
      cpu := switchThrough flags shown s.cpu
      current := next
      left := Function.update s.left s.current s.cpu }

/-- What a switch to a task has to do. -/
def Resumes (flags : Flags) (L : TaskLayout ι) (s : TaskSystem ι) : TaskEvent ι → Prop
  | .work _ => True
  | .switch next shown => Returned L next (Function.update s.left s.current s.cpu next)
      (switchThrough flags shown s.cpu)

/-- **After the first half every task waits**, the caller too. -/
theorem OthersSuspended.save (flags : Flags) (h : OthersSuspended L s)
    (hcall : TaskAllowed L s (.switch j shown)) (i : ι) :
    Suspended L (run flags switchSave s.cpu).mem i (Function.update s.left s.current s.cpu i) := by
  obtain ⟨hheld, -, hframe, -⟩ := hcall.saves flags
  have hroom := hcall.1
  have hforty : s.cpu.regs .esp - 48 + 8 = s.cpu.regs .esp - 40 := by grind
  by_cases hi : i = s.current
  · subst hi
    rw [Function.update_self]
    refine ⟨hroom, hheld, fun x hx hx' => hframe x ?_ ?_⟩
    · rw [show x - (s.cpu.regs .esp - 40) = x - (s.cpu.regs .esp - 48) - 8 by grind,
        Word32.toNat_sub_of_le (by rw [show (8 : UInt32).toNat = 8 from rfl]; omega),
        show (8 : UInt32).toNat = 8 from rfl]
      omega
    · have hfar := (L.area_stack s.current s.current).symm.far hx
      omega
  · rw [Function.update_of_ne hi]
    refine (h i hi).of_same (fun x hx => hframe x ?_ ?_) (fun x hx _ => hframe x ?_ ?_)
    · have hpart := hroom.apart (o := 8) (k := 40) (by decide) (by decide)
        ((L.area_stack i s.current).mono (show 44 ≤ 48 by decide) le_rfl)
      rw [hforty] at hpart
      exact hpart.far hx
    · exact (L.areas_apart i s.current hi).far hx
    · have hpart := hroom.apart (o := 8) (k := 40) (by decide) (by decide)
        (L.stacks_apart i s.current hi)
      rw [hforty] at hpart
      exact hpart.far hx
    · have hfar := (L.area_stack s.current i).symm.far hx
      omega

/-- The words the other task is taken from, and the eight bytes below the saved ones. -/
theorem OthersSuspended.rooms (flags : Flags) (h : OthersSuspended L s)
    (hcall : TaskAllowed L s (.switch j shown)) :
    Apart (L.area j) 48 (s.cpu.regs .esp - 40 - 8) 8 ∧
    Apart (L.area j) 48 ((Function.update s.left s.current s.cpu j).regs .esp) 4 := by
  have hroom := hcall.1
  have hj := h.save flags hcall j
  have hlow : s.cpu.regs .esp - 40 - 8 = s.cpu.regs .esp - 48 + 0 := by grind
  constructor
  · rw [hlow]
    exact hroom.apart (by decide) (by decide) (L.area_stack j s.current)
  · have hpart := hj.room.apart (o := 48) (k := 4) (by decide) (by decide) (L.area_stack j j)
    rw [UInt32.sub_add_cancel] at hpart
    exact hpart

/-- **A switch with memory as it was** leaves every task waiting, and the one it goes to returns. -/
theorem OthersSuspended.flat (flags : Flags) (h : OthersSuspended L s)
    (hcall : TaskAllowed L s (.switch j shown)) :
    (∀ i, Suspended L (run flags switchTask s.cpu).mem i (Function.update s.left s.current s.cpu i)) ∧
    Returned L j (Function.update s.left s.current s.cpu j) (run flags switchTask s.cpu) := by
  have hsave := h.save flags hcall
  obtain ⟨-, hp, -, hesp⟩ := hcall.saves flags
  have hroom := hcall.1
  have hj := hsave j
  have hlow : s.cpu.regs .esp - 40 - 8 = s.cpu.regs .esp - 48 + 0 := by grind
  have hslot : ∀ d : Cpu, d.regs .esp - 48 + 48 = d.regs .esp := fun d => UInt32.sub_add_cancel _ 48
  obtain ⟨hrecord, hfield⟩ := h.rooms flags hcall
  have hreturn : Apart (s.cpu.regs .esp - 40 - 8) 8
      ((Function.update s.left s.current s.cpu j).regs .esp) 4 := by
    by_cases hjs : j = s.current
    · subst hjs
      rw [Function.update_self]
      unfold Apart
      rw [show s.cpu.regs .esp - (s.cpu.regs .esp - 40 - 8) = 48 by grind,
        show s.cpu.regs .esp - 40 - 8 - s.cpu.regs .esp = 0xFFFFFFD0 by grind]
      decide
    · have hpart := hj.room.apart (o := 48) (k := 4) (by decide) (by decide)
        (hroom.apart (o := 0) (k := 8) (by decide) (by decide) (L.stacks_apart j s.current hjs)).symm
      rw [hslot] at hpart
      rw [hlow]
      exact hpart
  have hrun : run flags switchTask s.cpu = run flags switchLoad (run flags switchSave s.cpu) :=
    run_append flags switchSave switchLoad s.cpu
  rw [← hesp] at hp hrecord hreturn
  have hload := run_switchLoad flags hp hj.held hj.slot hrecord hfield hreturn
  -- what is stored on the way in lies below the caller's stack pointer
  have hkept : ∀ x : UInt32, 8 ≤ (x - ((run flags switchSave s.cpu).regs .esp - 8)).toNat →
      (run flags switchTask s.cpu).mem x = (run flags switchSave s.cpu).mem x := by
    intro x hx
    have hx' : 4 ≤ (x - ((run flags switchSave s.cpu).regs .esp - 4)).toNat := by
      rw [show x - ((run flags switchSave s.cpu).regs .esp - 4) =
        x - ((run flags switchSave s.cpu).regs .esp - 8) - 4 by grind,
        Word32.toNat_sub_of_le (by rw [show (4 : UInt32).toNat = 4 from rfl]; omega),
        show (4 : UInt32).toNat = 4 from rfl]
      omega
    rw [hrun, hload]
    exact (write32_of_far _ _ _ (by omega)).trans (write32_of_far _ _ _ hx')
  have hwait : ∀ i, Suspended L (run flags switchTask s.cpu).mem i
      (Function.update s.left s.current s.cpu i) := by
    intro i
    refine (hsave i).of_same (fun x hx => hkept x ?_) (fun x hx hx' => hkept x ?_)
    · rw [hesp, hlow]
      exact (hroom.apart (by decide) (by decide)
        ((L.area_stack i s.current).mono (show 44 ≤ 48 by decide) le_rfl)).far hx
    · rw [hesp, hlow]
      by_cases hi : i = s.current
      · subst hi
        rw [Function.update_self] at hx'
        rw [UInt32.add_zero]
        omega
      · exact (hroom.apart (by decide) (by decide) (L.stacks_apart i s.current hi)).far hx
  refine ⟨hwait, ?_, ?_, ?_, (hwait j).stack, ?_, ?_⟩
  · rw [hrun, hload]
  · rw [hrun, hload]
  · rw [hrun, hload]
  · exact (hwait j).held.read (i := 10) (by show 10 < 11; decide)
  · have hcr3 : (run flags switchTask s.cpu).ctrl .cr3 =
        read32 (run flags switchSave s.cpu).mem (L.area j + 44) := by
      rw [hrun, hload]
      rfl
    rw [hcr3]
    refine (read32_of_apart hkept (hrecord.within (by decide) ?_).symm).symm
    rw [show L.area j + 44 - L.area j = 44 by grind]
    decide

/-- **Another directory** that shows the records and stacks as they were makes no difference to them, nor
to the registers. -/
theorem OthersSuspended.through (flags : Flags) (h : OthersSuspended L s)
    (hcall : TaskAllowed L s (.switch j shown)) : ∃ m, switchThrough flags shown s.cpu =
      { run flags switchTask s.cpu with mem := m } ∧
    ∀ (i : ι) (x : UInt32), (x - L.area i).toNat < 48 ∨ (x - L.stack i).toNat < L.size i →
      m x = (run flags switchTask s.cpu).mem x := by
  obtain ⟨-, hp, -, hesp⟩ := hcall.saves flags
  obtain ⟨hrecord, hfield⟩ := h.rooms flags hcall
  have hj := h.save flags hcall j
  have halike := hcall.2.2.2
  rw [← hesp] at hp hrecord
  generalize Function.update s.left s.current s.cpu j = e at hj hfield
  obtain ⟨hsp, htop⟩ := run_switchEnter flags hp hj.held hrecord
  obtain ⟨d, hd⟩ : ∃ d, d = run flags switchEnter s.cpu := ⟨_, rfl⟩
  have hd' := hd
  rw [switchEnter, run_append] at hd'
  rw [← hd'] at hsp htop
  have hin : ∀ x : UInt32, (x - e.regs .esp).toNat < 4 → (x - L.stack j).toNat < L.size j := by
    intro x hx
    have hroom := hj.room.2
    have hlt := (L.area j - L.stack j).toNat_lt
    have hsize := (L.area_stack j j).2
    rw [show x - L.stack j = e.regs .esp - L.stack j + (x - e.regs .esp) by grind,
      Word32.toNat_add_of_lt (by omega)]
    omega
  obtain ⟨hleave, hmem⟩ := run_switchLeave flags hsp htop hfield (m := shown d.mem)
    (fun x hx => halike d.mem j x (Or.inl hx)) (fun x hx => halike d.mem j x (Or.inr (hin x hx)))
  have hflat : run flags switchTask s.cpu = run flags switchLeave d := by
    rw [switchTask_eq, run_append, ← hd]
  refine ⟨write32 (shown d.mem) (e.regs .esp) (read32 d.mem (L.area j + 32)), ?_, fun i x hx => ?_⟩
  · rw [hflat, switchThrough, ← hd]
    exact hleave
  · rw [hflat, hmem]
    by_cases hfar : 4 ≤ (x - e.regs .esp).toNat
    · rw [write32_of_far _ _ _ hfar, write32_of_far _ _ _ hfar]
      exact halike d.mem i x hx
    · -- a byte of the return address
      have hbyte : ∀ m v, write32 m (e.regs .esp) v x = write32 d.mem (e.regs .esp) v x := by
        intro m v
        have hone := write32_read32 m (write32 d.mem (e.regs .esp) v) (e.regs .esp) (e.regs .esp)
          (i := x - e.regs .esp) (by omega)
        rw [read32_write32_same, show e.regs .esp + (x - e.regs .esp) = x by grind] at hone
        exact hone
      exact hbyte _ _

/-- **The step.**  A switch leaves every task but the one it goes to waiting, and that one returns. -/
theorem OthersSuspended.switch (flags : Flags) (h : OthersSuspended L s)
    (hcall : TaskAllowed L s (.switch j shown)) :
    OthersSuspended L {
      cpu := switchThrough flags shown s.cpu
      current := j
      left := Function.update s.left s.current s.cpu } ∧
    Resumes flags L s (.switch j shown) := by
  obtain ⟨hwait, hback⟩ := h.flat flags hcall
  obtain ⟨m, hrun, hsame⟩ := h.through flags hcall
  generalize run flags switchTask s.cpu = c at *
  have hwords : ∀ o : UInt32, o.toNat + 4 ≤ 48 →
      read32 m (L.area j + o) = read32 c.mem (L.area j + o) := by
    intro o ho
    refine read32_congr fun k hk => hsame j _ (Or.inl ?_)
    rw [show L.area j + o + k - L.area j = o + k by grind, Word32.toNat_add_of_lt (by omega)]
    omega
  refine ⟨fun i _ => ?_, ?_⟩
  · show Suspended L (switchThrough flags shown s.cpu).mem i _
    rw [hrun]
    exact (hwait i).of_same (fun x hx => hsame i x (Or.inl (by omega)))
      fun x hx _ => hsame i x (Or.inr hx)
  · show Returned L j _ (switchThrough flags shown s.cpu)
    rw [hrun]
    exact {
      regs := hback.regs
      eip := hback.eip
      eflags := hback.eflags
      stack := fun x hx hx' => (hsame j x (Or.inr hx)).trans (hback.stack x hx hx')
      saved := (hwords 40 (by decide)).trans hback.saved
      cr3 := hback.cr3.trans (hwords 44 (by decide)).symm }

/-- **Switching is transparent**, but for the directory.  In every run of the tasks, in whatever order they
switch and whatever they do with their own memory in between, each switch returns in the task it goes to,
with that task's registers, flags and stack as they were when it last called `switchTask`.  Its `cr3` is
the one it had only if that is what the word behind its record holds. -/
theorem switchTask_run (flags : Flags) (L : TaskLayout ι) (start : TaskSystem ι)
    (hstart : OthersSuspended L start) (es : List (TaskEvent ι))
    (hes : Run.Permitted (TaskSystem.step flags) (TaskAllowed L) start es) :
    Run.AllSteps (TaskSystem.step flags) (Resumes flags L) start es := by
  refine Run.allSteps_of_permitted (I := OthersSuspended L) ?_ es start hstart hes
  intro s e s' hs hallowed hstep
  cases e with
  | work f =>
    cases hstep
    exact ⟨hs.work hallowed, trivial⟩
  | switch next shown =>
    cases hstep
    exact hs.switch flags hallowed

end Tasks

/-- Two tasks, of which one has the machine and calls for the other. -/
def twoTasks : TaskLayout Bool where
  area := fun i => if i then 0x1030 else 0x1000
  stack := fun i => if i then 0x3000 else 0x2000
  size := fun _ => 0x100
  areas_apart := by decide
  stacks_apart := by decide
  area_stack := by decide

def twoTasksStart : TaskSystem Bool :=
  let m : Mem := write32 (write32 (write32 (fun _ => 0) 0x2084 0x1000) 0x2088 0x1030) 0x1048 0x3084
  let idle (sp : UInt32) : Cpu :=
    { regs := fun r => if r = .esp then sp else 0, segs := fun _ => 0, ctrl := fun _ => 0, cs := 8,
      eip := 0, eflags := 0, mem := m }
  { cpu := idle 0x2080, current := false, left := fun _ => idle 0x3080 }

/-- The second task calls back from further down its stack. -/
def callBack (c : Cpu) : Cpu :=
  { c with
    regs := fun r => if r = .esp then 0x3060 else c.regs r
    mem := write32 (write32 c.mem 0x3064 0x1030) 0x3068 0x1000 }

/-- A directory that has another page at 0x5000. -/
def otherPage (m : Mem) : Mem := fun x => if (x - 0x5000).toNat < 0x1000 then 7 else m x

theorem otherPage_alike : twoTasks.MapsAlike otherPage := by
  have harea : ∀ i, Apart (twoTasks.area i) 48 0x5000 0x1000 := by decide
  have hstack : ∀ i, Apart (twoTasks.stack i) (twoTasks.size i) 0x5000 0x1000 := by decide
  intro m i x hx
  have hfar : 0x1000 ≤ (x - 0x5000).toNat := hx.elim (harea i).far (hstack i).far
  exact if_neg (by omega)

/-- To the second task, which does something and calls back. -/
theorem switchTask_run_two : Run.AllSteps (TaskSystem.step fun _ _ _ fl => fl)
    (Resumes (fun _ _ _ fl => fl) twoTasks) twoTasksStart
      [.switch true otherPage, .work callBack, .switch false id] := by
  refine switchTask_run _ twoTasks twoTasksStart ?_ _ ⟨?_, fun s₁ hs₁ => ⟨?_, fun s₂ hs₂ => ⟨?_,
    fun _ _ => trivial⟩⟩⟩
  · intro i hi
    cases i with
    | false => exact absurd rfl hi
    | true =>
      exact ⟨⟨by decide, by decide⟩, ⟨by decide, by decide, by decide, by decide, by decide, by decide,
        by decide, by decide, by decide, by decide, by decide, trivial⟩, fun _ _ _ => rfl⟩
  · exact ⟨⟨by decide, by decide⟩, by decide, by decide, otherPage_alike⟩
  · -- what the second task stores is on its own stack
    cases hs₁
    intro i hi
    have hkept : ∀ {a : UInt32} {n : ℕ} {x : UInt32}, Apart a n 0x3064 8 → (x - a).toNat < n →
        ∀ c : Cpu, (callBack c).mem x = c.mem x := by
      intro a n x hapart hx c
      have hfar : 8 ≤ (x - 0x3064).toNat := hapart.far hx
      have hfour : (4 : UInt32).toNat = 4 := rfl
      have hfar' : 4 ≤ (x - 0x3068).toNat := by
        rw [show x - 0x3068 = x - 0x3064 - 4 by grind, Word32.toNat_sub_of_le (by omega)]
        omega
      exact (write32_of_far _ _ _ hfar').trans (write32_of_far _ _ _ (by omega))
    cases i with
    | true => exact absurd rfl hi
    | false => exact ⟨fun x hx => hkept (n := 44) (by decide) hx _, fun x hx => hkept (n := 0x100) (by decide) hx _⟩
  · cases hs₁
    cases hs₂
    refine ⟨⟨by decide, by decide⟩, ?_, ?_, fun _ _ _ _ => rfl⟩
    · exact (read32_write32_of_apart _ _ (by decide)).trans (read32_write32_same _ _ _)
    · exact read32_write32_same _ _ _

end CometOS
