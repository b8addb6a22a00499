import CometOS.Lib.ByteMemory

/-!
# Straight-line 32-bit code and its stack

The instructions a context switch is made of: stack operations, moves between registers, memory and
the segment and control registers, and returns.  A program is a list of them.  What flags an arithmetic
instruction leaves is a parameter, since nothing here looks at them.

`WordsAt m sp ws` says that the words `ws` lie in memory from `sp` upwards.  Pushing and popping have one
rule each, so that a proof about saved registers never mentions an address.
-/

namespace X86

open ByteMemory Word32

inductive Reg
  | eax | ecx | edx | ebx | esp | ebp | esi | edi
  deriving DecidableEq, Repr

inductive Seg
  | ds | es | fs | gs
  deriving DecidableEq, Repr

inductive Ctrl
  | cr2 | cr3
  deriving DecidableEq, Repr

@[ext] structure Cpu where
  regs : Reg → UInt32
  segs : Seg → UInt16
  ctrl : Ctrl → UInt32
  cs : UInt16
  eip : UInt32
  eflags : UInt32
  mem : Mem

inductive AluOp
  | add | sub | and
  deriving DecidableEq, Repr

/-- The flags after an operation on two words, given the flags before it. -/
abbrev Flags := AluOp → UInt32 → UInt32 → UInt32 → UInt32

inductive Instr
  | push (r : Reg)
  | pushImm (v : UInt32)
  | pop (r : Reg)
  | pushf
  | popf
  | pusha
  | mov (dst src : Reg)
  | movImm (dst : Reg) (v : UInt32)
  | load (dst base : Reg) (disp : UInt32)
  | store (base : Reg) (disp : UInt32) (src : Reg)
  | fromSeg (dst : Reg) (s : Seg)
  | toSeg (s : Seg) (src : Reg)
  | fromCtrl (dst : Reg) (k : Ctrl)
  | toCtrl (k : Ctrl) (src : Reg)
  | alu (op : AluOp) (dst : Reg) (v : UInt32)
  | xchgTop (r : Reg)
  | ret
  | iret
  deriving DecidableEq, Repr

def AluOp.apply : AluOp → UInt32 → UInt32 → UInt32
  | .add, a, b => a + b
  | .sub, a, b => a - b
  | .and, a, b => a &&& b

namespace Cpu

def set (r : Reg) (v : UInt32) (c : Cpu) : Cpu :=
  { c with regs := fun r' => if r' = r then v else c.regs r' }

/-- A word goes on the stack. -/
def pushWord (v : UInt32) (c : Cpu) : Cpu :=
  { c.set .esp (c.regs .esp - 4) with mem := write32 c.mem (c.regs .esp - 4) v }

/-- The word on top of the stack. -/
def top (c : Cpu) : UInt32 := read32 c.mem (c.regs .esp)

def dropWord (c : Cpu) : Cpu := c.set .esp (c.regs .esp + 4)

section Fields

variable (c : Cpu) (r r' : Reg) (v : UInt32)

@[simp] theorem set_regs : (c.set r v).regs r' = if r' = r then v else c.regs r' := rfl
@[simp] theorem set_segs : (c.set r v).segs = c.segs := rfl
@[simp] theorem set_ctrl : (c.set r v).ctrl = c.ctrl := rfl
@[simp] theorem set_cs : (c.set r v).cs = c.cs := rfl
@[simp] theorem set_eip : (c.set r v).eip = c.eip := rfl
@[simp] theorem set_eflags : (c.set r v).eflags = c.eflags := rfl
@[simp] theorem set_mem : (c.set r v).mem = c.mem := rfl

@[simp] theorem pushWord_regs :
    (c.pushWord v).regs r = if r = .esp then c.regs .esp - 4 else c.regs r := rfl
@[simp] theorem pushWord_segs : (c.pushWord v).segs = c.segs := rfl
@[simp] theorem pushWord_ctrl : (c.pushWord v).ctrl = c.ctrl := rfl
@[simp] theorem pushWord_cs : (c.pushWord v).cs = c.cs := rfl
@[simp] theorem pushWord_eip : (c.pushWord v).eip = c.eip := rfl
@[simp] theorem pushWord_eflags : (c.pushWord v).eflags = c.eflags := rfl
@[simp] theorem pushWord_mem : (c.pushWord v).mem = write32 c.mem (c.regs .esp - 4) v := rfl

@[simp] theorem dropWord_regs :
    c.dropWord.regs r = if r = .esp then c.regs .esp + 4 else c.regs r := rfl
@[simp] theorem dropWord_segs : c.dropWord.segs = c.segs := rfl
@[simp] theorem dropWord_ctrl : c.dropWord.ctrl = c.ctrl := rfl
@[simp] theorem dropWord_cs : c.dropWord.cs = c.cs := rfl
@[simp] theorem dropWord_eip : c.dropWord.eip = c.eip := rfl
@[simp] theorem dropWord_eflags : c.dropWord.eflags = c.eflags := rfl
@[simp] theorem dropWord_mem : c.dropWord.mem = c.mem := rfl

end Fields

end Cpu

open Cpu

/-- One instruction. -/
def exec (flags : Flags) : Instr → Cpu → Cpu
  | .push r, c => c.pushWord (c.regs r)
  | .pushImm v, c => c.pushWord v
  | .pop r, c => c.dropWord.set r c.top
  | .pushf, c => c.pushWord c.eflags
  | .popf, c => { c.dropWord with eflags := c.top }
  | .pusha, c =>
    ((((((((c.pushWord (c.regs .eax)).pushWord (c.regs .ecx)).pushWord (c.regs .edx)).pushWord
      (c.regs .ebx)).pushWord (c.regs .esp)).pushWord (c.regs .ebp)).pushWord (c.regs .esi)).pushWord
        (c.regs .edi))
  | .mov dst src, c => c.set dst (c.regs src)
  | .movImm dst v, c => c.set dst v
  | .load dst base disp, c => c.set dst (read32 c.mem (c.regs base + disp))
  | .store base disp src, c => { c with mem := write32 c.mem (c.regs base + disp) (c.regs src) }
  | .fromSeg dst s, c => c.set dst (c.segs s).toUInt32
  | .toSeg s src, c => { c with segs := fun s' => if s' = s then (c.regs src).toUInt16 else c.segs s' }
  | .fromCtrl dst k, c => c.set dst (c.ctrl k)
  | .toCtrl k src, c => { c with ctrl := fun k' => if k' = k then c.regs src else c.ctrl k' }
  | .alu op dst v, c =>
    { c.set dst (op.apply (c.regs dst) v) with eflags := flags op (c.regs dst) v c.eflags }
  | .xchgTop r, c =>
    { c.set r c.top with mem := write32 c.mem (c.regs .esp) (c.regs r) }
  | .ret, c => { c.dropWord with eip := c.top }
  | .iret, c =>
    let c := { c.dropWord with eip := c.top }
    let c := { c.dropWord with cs := c.top.toUInt16 }
    { c.dropWord with eflags := c.top }

/-- A program, from its first instruction to its last. -/
def run (flags : Flags) : List Instr → Cpu → Cpu
  | [], c => c
  | i :: is, c => run flags is (exec flags i c)

theorem run_append (flags : Flags) (xs ys : List Instr) (c : Cpu) :
    run flags (xs ++ ys) c = run flags ys (run flags xs c) := by
  induction xs generalizing c with
  | nil => rfl
  | cons i is ih => exact ih (exec flags i c)

/-! ### The stack -/

/-- The words `ws` lie from `sp` upwards. -/
def WordsAt (m : Mem) (sp : UInt32) : List UInt32 → Prop
  | [] => True
  | w :: ws => read32 m sp = w ∧ WordsAt m (sp + 4) ws

/-- Nothing but the `n` bytes from `sp` upwards has changed. -/
def SameBut (m m' : Mem) (sp : UInt32) (n : ℕ) : Prop :=
  ∀ x : UInt32, n ≤ (x - sp).toNat → m' x = m x

theorem SameBut.refl (m : Mem) (sp : UInt32) (n : ℕ) : SameBut m m sp n := fun _ _ => rfl

section Stack

variable {m m' : Mem} {sp a v : UInt32} {ws : List UInt32}

/-- Words out of the changed block's reach are kept. -/
theorem WordsAt.of_sameBut {n : ℕ} (h : WordsAt m sp ws) (hm : SameBut m m' a n)
    (hapart : Apart a n sp (4 * ws.length)) : WordsAt m' sp ws := by
  induction ws generalizing sp with
  | nil => trivial
  | cons w ws ih =>
    obtain ⟨hw, hws⟩ := h
    rw [List.length_cons] at hapart
    refine ⟨?_, ?_⟩
    · rw [read32_of_apart hm (hapart.mono le_rfl (by omega))]
      exact hw
    · cases ws with
      | nil => trivial
      | cons v ws =>
        refine ih hws ?_
        obtain ⟨h1, h2⟩ := hapart
        have ha := a.toNat_lt
        have hsp := sp.toNat_lt
        rw [List.length_cons] at *
        unfold Apart
        simp only [UInt32.toNat_sub, UInt32.toNat_add, show (4 : UInt32).toNat = 4 from rfl] at *
        constructor <;> omega

theorem sub_four_add (sp : UInt32) : sp - 4 + 4 = sp := UInt32.sub_add_cancel sp 4

/-- Two words taken off at once. -/
theorem WordsAt.skip {w : UInt32} (h : WordsAt m sp (v :: w :: ws)) : WordsAt m (sp + 8) ws := by
  have hws := h.2.2
  rw [UInt32.add_assoc] at hws
  exact hws

/-- A word of them, by its place. -/
theorem WordsAt.read (h : WordsAt m sp ws) {i : ℕ} (hi : i < ws.length) :
    read32 m (sp + 4 * UInt32.ofNat i) = ws[i] := by
  induction ws generalizing sp i with
  | nil => cases hi
  | cons w ws ih =>
    cases i with
    | zero =>
      rw [show sp + 4 * UInt32.ofNat 0 = sp by rw [show (4 : UInt32) * UInt32.ofNat 0 = 0 from rfl, UInt32.add_zero]]
      exact h.1
    | succ i =>
      have hnext := ih h.2 (Nat.lt_of_succ_lt_succ hi)
      rw [UInt32.ofNat_add, show sp + 4 * (UInt32.ofNat i + UInt32.ofNat 1) =
        sp + 4 + 4 * UInt32.ofNat i by rw [show UInt32.ofNat 1 = 1 from rfl]; grind]
      exact hnext

theorem WordsAt.of_read (h : ∀ i (hi : i < ws.length), read32 m (sp + 4 * UInt32.ofNat i) = ws[i]) :
    WordsAt m sp ws := by
  induction ws generalizing sp with
  | nil => trivial
  | cons w ws ih =>
    refine ⟨?_, ih fun i hi => ?_⟩
    · have h0 := h 0 (Nat.succ_pos _)
      rw [show (4 : UInt32) * UInt32.ofNat 0 = 0 from rfl, UInt32.add_zero] at h0
      exact h0
    · have hnext := h (i + 1) (Nat.succ_lt_succ hi)
      rw [UInt32.ofNat_add, show sp + 4 * (UInt32.ofNat i + UInt32.ofNat 1) =
        sp + 4 + 4 * UInt32.ofNat i by rw [show UInt32.ofNat 1 = 1 from rfl]; grind] at hnext
      exact hnext

/-- Words whose bytes have not changed. -/
theorem WordsAt.of_bytes (h : WordsAt m sp ws) (hlen : 4 * ws.length ≤ 2 ^ 32)
    (hm : ∀ x : UInt32, (x - sp).toNat < 4 * ws.length → m' x = m x) : WordsAt m' sp ws := by
  induction ws generalizing sp with
  | nil => trivial
  | cons w ws ih =>
    rw [List.length_cons] at *
    refine ⟨?_, ih h.2 (by omega) fun x hx => hm x ?_⟩
    · rw [← h.1]
      refine read32_congr fun i hi => hm _ ?_
      rw [show sp + i - sp = i by grind]
      omega
    · rw [show x - sp = x - (sp + 4) + 4 by grind,
        toNat_add_of_lt (by rw [show (4 : UInt32).toNat = 4 from rfl]; omega),
        show (4 : UInt32).toNat = 4 from rfl]
      omega

/-- **Push rule.** -/
theorem WordsAt.push (h : WordsAt m sp ws) (hlen : 4 * ws.length + 4 ≤ 2 ^ 32) (v : UInt32) :
    WordsAt (write32 m (sp - 4) v) (sp - 4) (v :: ws) := by
  refine ⟨read32_write32_same m _ v, ?_⟩
  rw [sub_four_add]
  refine h.of_sameBut (a := sp - 4) (n := 4) (fun x hx => write32_of_far m _ v hx) ?_
  have hsp := sp.toNat_lt
  unfold Apart
  simp only [UInt32.toNat_sub, show (4 : UInt32).toNat = 4 from rfl]
  constructor <;> omega

theorem SameBut.push {n : ℕ} (h : SameBut m m' sp n) (hn : n + 4 ≤ 2 ^ 32) (v : UInt32) :
    SameBut m (write32 m' (sp - 4) v) (sp - 4) (n + 4) := by
  intro x hx
  rw [write32_of_far m' _ v (by omega)]
  refine h x ?_
  have hsp := sp.toNat_lt
  have hx' := x.toNat_lt
  simp only [UInt32.toNat_sub, show (4 : UInt32).toNat = 4 from rfl] at *
  omega

end Stack

/-! ### Pushing several words -/

/-- The words go on the stack in order. -/
def pushWords : List UInt32 → Cpu → Cpu
  | [], c => c
  | v :: vs, c => pushWords vs (c.pushWord v)

section PushWords

variable {c : Cpu} {ws : List UInt32}

theorem pushWord_esp (v : UInt32) (c : Cpu) : (c.pushWord v).regs .esp = c.regs .esp - 4 := by
  simp

theorem pushWords_holds (vs : List UInt32) (h : WordsAt c.mem (c.regs .esp) ws)
    (hlen : 4 * (vs.length + ws.length) ≤ 2 ^ 32) :
    WordsAt (pushWords vs c).mem ((pushWords vs c).regs .esp) (vs.reverse ++ ws) := by
  induction vs generalizing c ws with
  | nil => exact h
  | cons v vs ih =>
    rw [List.length_cons] at hlen
    have hpush : WordsAt (c.pushWord v).mem ((c.pushWord v).regs .esp) (v :: ws) := by
      rw [pushWord_esp]
      exact h.push (by omega) v
    have := ih hpush (by rw [List.length_cons]; omega)
    rw [List.reverse_cons, List.append_assoc]
    exact this

theorem pushWords_sameBut (vs : List UInt32) {m : Mem} {n : ℕ} (h : SameBut m c.mem (c.regs .esp) n)
    (hlen : n + 4 * vs.length ≤ 2 ^ 32) :
    SameBut m (pushWords vs c).mem ((pushWords vs c).regs .esp) (n + 4 * vs.length) := by
  induction vs generalizing c n with
  | nil => exact h
  | cons v vs ih =>
    rw [List.length_cons] at *
    have hpush : SameBut m (c.pushWord v).mem ((c.pushWord v).regs .esp) (n + 4) := by
      rw [pushWord_esp]
      exact h.push (by omega) v
    have := ih hpush (by omega)
    rw [show n + 4 * (vs.length + 1) = n + 4 + 4 * vs.length by omega]
    exact this

theorem pushWords_esp (vs : List UInt32) :
    (pushWords vs c).regs .esp = c.regs .esp - 4 * UInt32.ofNat vs.length := by
  induction vs generalizing c with
  | nil =>
    show c.regs .esp = c.regs .esp - 4 * 0
    rw [UInt32.mul_zero, UInt32.sub_zero]
  | cons v vs ih =>
    rw [pushWords, ih, pushWord_esp, List.length_cons, UInt32.ofNat_add]
    grind

theorem pushWords_append (xs ys : List UInt32) (c : Cpu) :
    pushWords (xs ++ ys) c = pushWords ys (pushWords xs c) := by
  induction xs generalizing c with
  | nil => rfl
  | cons v vs ih => exact ih (c.pushWord v)

/-- What they do to memory and to the stack pointer depends on these two only. -/
theorem pushWords_congr {c c' : Cpu} (vs : List UInt32) (hmem : c'.mem = c.mem)
    (hesp : c'.regs .esp = c.regs .esp) : (pushWords vs c').mem = (pushWords vs c).mem ∧
      (pushWords vs c').regs .esp = (pushWords vs c).regs .esp := by
  induction vs generalizing c c' with
  | nil => exact ⟨hmem, hesp⟩
  | cons v vs ih =>
    refine ih ?_ ?_
    · show write32 c'.mem (c'.regs .esp - 4) v = write32 c.mem (c.regs .esp - 4) v
      rw [hmem, hesp]
    · rw [pushWord_esp, pushWord_esp, hesp]

/-- They leave everything else alone. -/
theorem pushWords_rest (vs : List UInt32) (c : Cpu) :
    (∀ r, r ≠ .esp → (pushWords vs c).regs r = c.regs r) ∧ (pushWords vs c).segs = c.segs ∧
      (pushWords vs c).ctrl = c.ctrl ∧ (pushWords vs c).cs = c.cs ∧
      (pushWords vs c).eflags = c.eflags := by
  induction vs generalizing c with
  | nil => exact ⟨fun _ _ => rfl, rfl, rfl, rfl, rfl⟩
  | cons v vs ih =>
    obtain ⟨hregs, hrest⟩ := ih (c.pushWord v)
    refine ⟨fun r hr => ?_, hrest⟩
    rw [pushWords, hregs r hr]
    exact if_neg hr

end PushWords

/-! ### The same word twice -/

theorem write32_write32 (m : Mem) (a v w : UInt32) : write32 (write32 m a v) a w = write32 m a w := by
  funext x
  unfold write32
  grind

/-- A word written over itself. -/
theorem write32_self {m : Mem} {a v : UInt32} (h : read32 m a = v) : write32 m a v = m := by
  funext x
  by_cases hx : (x - a).toNat < 4
  · have hbyte := write32_read32 m m a a hx
    rw [show a + (x - a) = x by grind, h] at hbyte
    exact hbyte
  · exact write32_of_far m a v (Nat.le_of_not_lt hx)

/-! ### A record stored word by word -/

/-- Words stored at their offsets from `a`, one after the other. -/
def storeWords (m : Mem) (a : UInt32) : List (UInt32 × UInt32) → Mem
  | [] => m
  | (o, v) :: ws => storeWords (write32 m (a + o) v) a ws

section StoreWords

variable {m : Mem} {a : UInt32}

theorem storeWords_append (m : Mem) (a : UInt32) (xs ys : List (UInt32 × UInt32)) :
    storeWords m a (xs ++ ys) = storeWords (storeWords m a xs) a ys := by
  induction xs generalizing m with
  | nil => rfl
  | cons w ws ih => exact ih (write32 m (a + w.1) w.2)

/-- A word at an offset that none of them touches. -/
theorem read32_storeWords_of_apart {b : UInt32} (ws : List (UInt32 × UInt32))
    (h : ∀ w ∈ ws, Apart (a + w.1) 4 b 4) : read32 (storeWords m a ws) b = read32 m b := by
  induction ws generalizing m with
  | nil => rfl
  | cons w ws ih =>
    obtain ⟨hw, hws⟩ := List.forall_mem_cons.1 h
    rw [storeWords, ih hws]
    exact read32_of_apart (fun x hx => write32_of_far m _ _ hx) hw

/-- Each of them is read back. -/
theorem read32_storeWords (ws : List (UInt32 × UInt32))
    (hapart : (ws.map Prod.fst).Pairwise fun o o' => Apart o 4 o' 4) {o v : UInt32}
    (h : (o, v) ∈ ws) : read32 (storeWords m a ws) (a + o) = v := by
  induction ws generalizing m with
  | nil => cases h
  | cons w ws ih =>
    obtain ⟨hfirst, hrest⟩ := List.pairwise_cons.1 hapart
    rcases List.mem_cons.1 h with rfl | h
    · rw [storeWords, read32_storeWords_of_apart ws]
      · exact read32_write32_same m _ v
      · intro w' hw'
        exact ((apart_add a).2 (hfirst w'.1 (List.mem_map_of_mem hw'))).symm
    · exact ih hrest h

/-- Nothing but the record is changed. -/
theorem storeWords_sameBut (ws : List (UInt32 × UInt32)) {n : ℕ}
    (h : ∀ o ∈ ws.map Prod.fst, o.toNat + 4 ≤ n) : SameBut m (storeWords m a ws) a n := by
  induction ws generalizing m with
  | nil => exact SameBut.refl m a n
  | cons w ws ih =>
    obtain ⟨hw, hws⟩ := List.forall_mem_cons.1 h
    intro x hx
    rw [storeWords, ih hws x hx]
    refine write32_of_far m _ _ ?_
    rw [show x - (a + w.1) = x - a - w.1 by grind, toNat_sub_of_le (by omega)]
    omega

end StoreWords

end X86
