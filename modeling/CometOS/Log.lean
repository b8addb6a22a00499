import CometOS.Printf

/-!
# `vasprintf` (`kernel/kernel/ui/log.c`)

The buffer is an object of its own.  A place in it is how far it is from `buf`, going round the
address space, and each store is on record, wherever it goes.  The format and the strings for `%s`
lie in memory, and the variable arguments are the words after the format: however many are taken,
there is a next one.  `none` is a loop still running after more tests than there are addresses.
-/

namespace CometOS

open ByteMemory CString Loop Numeral Word32

/-! ### The buffer -/

/-- `buf` and `*ptr`, and where has been stored. -/
structure LogBuffer where
  data : UInt32 → UInt8
  ptr : UInt32
  stores : List UInt32

namespace LogBuffer

/-- `buf[k] = c`. -/
def store (k : UInt32) (c : UInt8) (b : LogBuffer) : LogBuffer :=
  { b with data := Function.update b.data k c, stores := b.stores ++ [k] }

/-- `buf[*ptr] = c; *ptr += 1`. -/
def append (b : LogBuffer) (c : UInt8) : LogBuffer :=
  { b.store b.ptr c with ptr := b.ptr + 1 }

/-- One character after the other. -/
def appendAll (b : LogBuffer) (xs : List UInt8) : LogBuffer := xs.foldl append b

/-- From `b` on, `n` more characters have been stored behind one another. -/
structure Advanced (b b' : LogBuffer) (n : ℕ) : Prop where
  ptr : b'.ptr = b.ptr + UInt32.ofNat n
  stores : ∀ k, k ∈ b'.stores ↔ k ∈ b.stores ∨ ∃ i < n, k = b.ptr + UInt32.ofNat i

/-- From `b` on, the text `xs` has been stored, and nothing else. -/
structure Appends (b b' : LogBuffer) (xs : List UInt8) : Prop extends Advanced b b' xs.length where
  here : ∀ i, (hi : i < xs.length) → b'.data (b.ptr + UInt32.ofNat i) = xs[i]
  frame : ∀ x : UInt32, xs.length ≤ (x - b.ptr).toNat → b'.data x = b.data x

end LogBuffer

/-! ### Counting digits -/

/-- The first loop of `print_dec` and of `print_hex`: `n_width` goes up until the largest number of
so many digits is not below `value`. -/
def digitCount (base last value : UInt32) : Option UInt32 :=
  (whileLoop (fun p : UInt32 × UInt32 => p.2 < value ∧ p.2 < 0xFFFFFFFF)
    (fun p => some (p.1 + 1, p.2 * base + last)) (2 ^ 32) (1, last)).map Prod.fst

/-! ### `print_dec` -/

/-- `n_width` of `print_dec`. -/
def decWidth (value : UInt32) : Option UInt32 := digitCount 10 9 value

/-- The second loop of `print_dec`. -/
def padDec (nWidth width : UInt32) (b : LogBuffer) : Option LogBuffer :=
  (whileLoop (fun p : UInt32 × LogBuffer => nWidth + p.1 < width)
    (fun p => some (p.1 + 1, p.2.append 48)) (2 ^ 32) (0, b)).map Prod.snd

/-- The third loop of `print_dec`, with `i` still to go. -/
def storeDigits : ℕ → UInt32 → LogBuffer → LogBuffer
  | 0, _, b => b
  | i + 1, value, b =>
    storeDigits i (value / 10) (b.store (b.ptr + UInt32.ofNat i) (value % 10 + 48).toUInt8)

def printDec (value width : UInt32) (b : LogBuffer) : Option LogBuffer := do
  let nWidth ← decWidth value
  let b ← padDec nWidth width b
  let b := storeDigits nWidth.toNat value b
  some { b with ptr := b.ptr + nWidth }

/-! ### `print_hex` -/

/-- `n_width` of `print_hex`. -/
def hexWidth (value : UInt32) : Option UInt32 := digitCount 0x10 0x0F value

/-- The second loop of `print_hex`. -/
def padHex (nWidth : UInt32) (i : ℤ) (b : LogBuffer) : Option LogBuffer :=
  (whileLoop (fun p : ℤ × LogBuffer => nWidth.toInt32.toInt < p.1)
    (fun p => some (p.1 - 1, p.2.append 48)) (2 ^ 32) (i, b)).map Prod.snd

/-- `"0123456789abcdef"[k]`. -/
def hexDigit (k : UInt32) : UInt8 :=
  [48, 49, 50, 51, 52, 53, 54, 55, 56, 57, 97, 98, 99, 100, 101, 102].getD k.toNat 0

/-- The third loop of `print_hex`, with `i` still to go. -/
def storeHexDigits (value : UInt32) : ℕ → LogBuffer → LogBuffer
  | 0, b => b
  | i + 1, b => storeHexDigits value i (b.append (hexDigit ((value >>> UInt32.ofNat (i * 4)) &&& 0xF)))

/-- `i`, where the width is not given. -/
def hexPad (width : UInt32) : ℤ := if width.toInt32.toInt = 0 then 8 else width.toInt32.toInt

def printHex (value width : UInt32) (b : LogBuffer) : Option LogBuffer := do
  let nWidth ← hexWidth value
  let b ← padHex nWidth (hexPad width) b
  some (storeHexDigits value nWidth.toNat b)

/-! ### `vasprintf` -/

/-- Where `vasprintf` is: `i`, an `int`, comes at most to the place after the `NUL` of the format,
and `next` arguments have been taken. -/
structure LogState where
  i : ℕ
  next : ℕ
  out : LogBuffer

/-- `while (*s) buf[ptr++] = *s++`. -/
def logString (mem : Mem) (s : UInt32) (b : LogBuffer) : Option LogBuffer :=
  (whileLoop (fun p : UInt32 × LogBuffer => mem p.1 ≠ 0)
    (fun p => some (p.1 + 1, p.2.append (mem p.1))) (2 ^ 32) (s, b)).map Prod.snd

/-- `"(null)"`. -/
def nullText : List UInt8 := [40, 110, 117, 108, 108, 41]

/-- The loop over the width at `i`. -/
def logWidth (mem : Mem) (fmt : UInt32) (i : ℕ) : Option (ℕ × UInt32) :=
  whileLoop (fun p : ℕ × UInt32 =>
      48 ≤ mem (fmt + UInt32.ofNat p.1) ∧ mem (fmt + UInt32.ofNat p.1) ≤ 57)
    (fun p => some (p.1 + 1, p.2 * 10 + (mem (fmt + UInt32.ofNat p.1) - 48).toUInt32)) (2 ^ 32) (i, 0)

/-- The cases of the conversion character. -/
def logConversion (mem : Mem) (args : ℕ → UInt32) (conversion : UInt8) (argWidth : UInt32)
    (s : LogState) : Option LogState :=
  if conversion = 115 then
    let string := args s.next
    let s := { s with next := s.next + 1 }
    if string = 0 then some { s with out := s.out.appendAll nullText }
    else (logString mem string s.out).map fun out => { s with out }
  else if conversion = 99 then
    some { s with next := s.next + 1, out := s.out.append (args s.next).toUInt8 }
  else if conversion = 120 then
    (printHex (args s.next) argWidth s.out).map fun out => { s with next := s.next + 1, out }
  else if conversion = 100 then
    (printDec (args s.next) argWidth s.out).map fun out => { s with next := s.next + 1, out }
  else if conversion = 37 then some { s with out := s.out.append 37 }
  else some { s with out := s.out.append conversion }

/-- The body of the loop of `vasprintf`. -/
def logBody (mem : Mem) (fmt : UInt32) (args : ℕ → UInt32) (s : LogState) : Option LogState :=
  let c := mem (fmt + UInt32.ofNat s.i)
  if c ≠ 37 then some { s with i := s.i + 1, out := s.out.append c }
  else do
    let p ← logWidth mem fmt (s.i + 1)
    let s ← logConversion mem args (mem (fmt + UInt32.ofNat p.1)) p.2 { s with i := p.1 }
    some { s with i := s.i + 1 }

/-- `vasprintf` into a buffer that holds `data`.  `len` is an `int`. -/
def vasprintf (mem : Mem) (data : UInt32 → UInt8) (fmt : UInt32) (args : ℕ → UInt32) :
    Option LogBuffer := do
  let len ← strlen mem fmt
  let s ← whileLoop
    (fun s : LogState => (s.i : ℤ) < len.toInt32.toInt ∧ mem (fmt + UInt32.ofNat s.i) ≠ 0)
    (logBody mem fmt args) (2 ^ 32) ⟨0, 0, ⟨data, 0, []⟩⟩
  some (s.out.store s.out.ptr 0)

end CometOS
