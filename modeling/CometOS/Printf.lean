import CometOS.Lib.CString
import CometOS.Lib.Numeral

/-!
# `printf` (`libc/stdio/printf.c`)

The format and the strings for `%s` lie in memory.  The variable arguments are the 32-bit words the
caller has pushed: an `int`, a `long`, a `size_t`, a `ptrdiff_t` or a pointer is one word, a
`long long` or an `intmax_t` two, the low one first.  What is passed to `putchar` is logged, the
latest last.  `none` is a `va_arg` past the last argument, or a loop still running after more tests
than there are addresses.
-/

namespace CometOS

open ByteMemory CString Loop Numeral Word32

/-! ### Integers -/

/-- The first loop of `convert_integer`: how many digits there are. -/
def countDigits (value base : UInt64) : Option ℕ :=
  (whileLoop (fun p : UInt64 × ℕ => base ≤ p.1) (fun p => some (p.1 / base, p.2 + 1)) (2 ^ 64)
    (value, 1)).map Prod.snd

/-- The second loop of `convert_integer`, with `i` still to go. -/
def fillDigits (base : UInt64) (digits : List UInt8) : ℕ → UInt64 → (ℕ → UInt8) → (ℕ → UInt8)
  | 0, _, destination => destination
  | i + 1, value, destination =>
    fillDigits base digits i (value / base)
      (Function.update destination i (digits.getD (value % base).toNat 0))

/-- `convert_integer`: what is in `destination` afterwards, and the length. -/
def convertInteger (destination : ℕ → UInt8) (value base : UInt64) (digits : List UInt8) :
    Option ((ℕ → UInt8) × ℕ) :=
  (countDigits value base).map fun result =>
    (fillDigits base digits result value destination, result)

/-- `print`. -/
def print (data : ℕ → UInt8) (dataLength : ℕ) (out : List UInt8) : List UInt8 :=
  forUp (fun i out => out ++ [data i]) 0 dataLength out

/-! ### Length modifiers -/

/-- `enum length`. -/
inductive Length
  | shortShort
  | short
  | default
  | long
  | longLong
  | longDouble
  | intmaxT
  | sizeT
  | ptrdiffT
  deriving DecidableEq

/-- `length_modifiers`: hh, h, nothing, l, ll, L, j, z, t. -/
def lengthModifiers : List (List UInt8 × Length) :=
  [([104, 104], .shortShort), ([104], .short), ([], .default), ([108], .long),
    ([108, 108], .longLong), ([76], .longDouble), ([106], .intmaxT), ([122], .sizeT),
    ([116], .ptrdiffT)]

/-- `different`, after comparing all of the name. -/
def nameDiffers (mem : Mem) (format : UInt32) (name : List UInt8) : Bool :=
  forUp (fun n different =>
    if mem (format + UInt32.ofNat n) ≠ name.getD n 0 then true else different) 0 name.length false

/-- The loop over the length modifiers: the last of the longest ones that match. -/
def lengthModifier (mem : Mem) (format : UInt32) : Length × ℕ :=
  lengthModifiers.foldl (fun p modifier =>
    if modifier.1.length < p.2 then p
    else if nameDiffers mem format modifier.1 then p
    else (modifier.2, modifier.1.length)) (.default, 0)

/-! ### Arguments -/

/-- `va_arg` of a one-word type. -/
def vaArg32 : List UInt32 → Option (UInt32 × List UInt32)
  | w :: parameters => some (w, parameters)
  | [] => none

/-- `va_arg` of a two-word type. -/
def vaArg64 : List UInt32 → Option (UInt64 × List UInt32)
  | lo :: hi :: parameters => some (lo.toUInt64 ||| hi.toUInt64 <<< 32, parameters)
  | _ => none

/-- How `signed_value` is read; `none` is `goto incomprehensible_conversion`. -/
def signedValue : Length → Option (List UInt32 → Option (Int64 × List UInt32))
  | .shortShort | .short | .default | .long | .ptrdiffT =>
    some fun parameters => (vaArg32 parameters).map fun p => (p.1.toInt32.toInt64, p.2)
  | .longLong | .intmaxT =>
    some fun parameters => (vaArg64 parameters).map fun p => (p.1.toInt64, p.2)
  | .longDouble | .sizeT => none

/-- How `value` is read for an unsigned conversion. -/
def unsignedValue : Length → Option (List UInt32 → Option (UInt64 × List UInt32))
  | .shortShort | .short | .default | .long | .sizeT =>
    some fun parameters => (vaArg32 parameters).map fun p => (p.1.toUInt64, p.2)
  | .longLong | .intmaxT => some vaArg64
  | .ptrdiffT =>
    some fun parameters => (vaArg32 parameters).map fun p => (p.1.toInt32.toInt64.toUInt64, p.2)
  | .longDouble => none

/-! ### The scanner -/

structure PrintfState where
  format : UInt32
  parameters : List UInt32
  written : UInt32
  rejectedBadSpecifier : Bool
  out : List UInt8

/-- `print_c`: the character at `format`, whatever it is, and those up to the next `%`. -/
def printC (mem : Mem) (s : PrintfState) : Option PrintfState :=
  (whileLoop (fun amount => mem (s.format + amount) ≠ 0 ∧ mem (s.format + amount) ≠ 37)
    (fun amount => some (amount + 1)) (2 ^ 32) 1).map fun amount =>
      { s with
        out := print (fun i => mem (s.format + UInt32.ofNat i)) amount.toNat s.out
        format := s.format + amount
        written := s.written + amount }

/-- `incomprehensible_conversion`. -/
def incomprehensibleConversion (mem : Mem) (formatBegunAt : UInt32) (s : PrintfState) :
    Option PrintfState :=
  printC mem { s with rejectedBadSpecifier := true, format := formatBegunAt }

/-- `digits`, for a conversion character. -/
def digitsOf (conversion : UInt8) : List UInt8 :=
  if conversion = 88 then [48, 49, 50, 51, 52, 53, 54, 55, 56, 57, 65, 66, 67, 68, 69, 70]
  else [48, 49, 50, 51, 52, 53, 54, 55, 56, 57, 97, 98, 99, 100, 101, 102]

/-- `base`, for a conversion character. -/
def baseOf (conversion : UInt8) : UInt64 :=
  if conversion = 120 ∨ conversion = 88 then 16 else if conversion = 111 then 8 else 10

/-- The end of an integer conversion; `output` starts out uninitialized. -/
def printInteger (conversion : UInt8) (negativeValue : Bool) (value : UInt64) (output : ℕ → UInt8)
    (s : PrintfState) : Option PrintfState :=
  let s := if negativeValue then { s with out := s.out ++ [45] } else s
  (convertInteger output value (baseOf conversion) (digitsOf conversion)).map fun r =>
    { s with out := print r.1 r.2 s.out }

/-- `strlen`. -/
def strlen (mem : Mem) (string : UInt32) : Option UInt32 :=
  whileLoop (fun result => mem (string + result) ≠ 0) (fun result => some (result + 1)) (2 ^ 32) 0

theorem strlen_eq {mem : Mem} {p : UInt32} {xs : List UInt8} (h : StringAt mem p xs) :
    strlen mem p = some (UInt32.ofNat xs.length) := by
  have hlen := h.length_lt
  exact scan_eq (f := fun c => c ≠ 0) (by rw [h.terminator]; rfl) 0 (by omega) (by omega)
    fun k _ hk => by
      rw [(h.byte hk).1, decide_eq_true_iff]
      exact (h.byte hk).2

/-- What follows the length modifier.  `formatBegunAt` is the place of the `%`. -/
def printfConversion (mem : Mem) (length : Length) (formatBegunAt : UInt32) (s : PrintfState) :
    Option PrintfState :=
  let conversion := mem s.format
  if conversion = 100 ∨ conversion = 105 ∨ conversion = 111 ∨ conversion = 117 ∨
      conversion = 120 ∨ conversion = 88 ∨ conversion = 112 then
    let s := { s with format := s.format + 1 }
    if conversion = 105 ∨ conversion = 100 then
      match signedValue length with
      | none => incomprehensibleConversion mem formatBegunAt s
      | some read =>
        (read s.parameters).bind fun p =>
          let value := if p.1 < 0 then -p.1.toUInt64 else p.1.toUInt64
          printInteger conversion (p.1 < 0) value (fun _ => 0) { s with parameters := p.2 }
    else
      match unsignedValue length with
      | none => incomprehensibleConversion mem formatBegunAt s
      | some read =>
        (read s.parameters).bind fun p =>
          printInteger conversion false p.1 (fun _ => 0) { s with parameters := p.2 }
  else if conversion = 99 then
    let s := { s with format := s.format + 1 }
    (vaArg32 s.parameters).map fun p =>
      { s with parameters := p.2, out := print (fun _ => p.1.toUInt8) 1 s.out }
  else if conversion = 115 then
    let s := { s with format := s.format + 1 }
    (vaArg32 s.parameters).bind fun p =>
      (strlen mem p.1).map fun length =>
        { s with
          parameters := p.2
          out := print (fun i => mem (p.1 + UInt32.ofNat i)) length.toNat s.out }
  else incomprehensibleConversion mem formatBegunAt s

/-- The body of the loop of `printf`. -/
def printfBody (mem : Mem) (s : PrintfState) : Option PrintfState :=
  if mem s.format ≠ 37 then printC mem s
  else
    let formatBegunAt := s.format
    let s := { s with format := s.format + 1 }
    if mem s.format = 37 then printC mem s
    else if s.rejectedBadSpecifier then incomprehensibleConversion mem formatBegunAt s
    else
      let r := lengthModifier mem s.format
      printfConversion mem r.1 formatBegunAt { s with format := s.format + UInt32.ofNat r.2 }

/-- `printf`. -/
def printf (mem : Mem) (format : UInt32) (parameters : List UInt32) : Option PrintfState :=
  whileLoop (fun s : PrintfState => mem s.format ≠ 0) (printfBody mem) (2 ^ 32)
    { format, parameters, written := 0, rejectedBadSpecifier := false, out := [] }

/-! ### What a format means -/

/-- The modifiers l, ll, j, t and z, or none. -/
inductive IntLength
  | none
  | l
  | ll
  | j
  | t
  | z
  deriving DecidableEq

namespace IntLength

def name : IntLength → List UInt8
  | none => []
  | l => [108]
  | ll => [108, 108]
  | j => [106]
  | t => [116]
  | z => [122]

/-- How many bits the argument has. -/
def bits : IntLength → ℕ
  | none | l | t | z => 32
  | ll | j => 64

def length : IntLength → Length
  | none => .default
  | l => .long
  | ll => .longLong
  | j => .intmaxT
  | t => .ptrdiffT
  | z => .sizeT

end IntLength

inductive SignedConversion
  | d
  | i

def SignedConversion.char : SignedConversion → UInt8
  | d => 100
  | i => 105

inductive UnsignedConversion
  | u
  | o
  | x
  | upperX

def UnsignedConversion.char : UnsignedConversion → UInt8
  | u => 117
  | o => 111
  | x => 120
  | upperX => 88

def UnsignedConversion.base : UnsignedConversion → ℕ
  | u => 10
  | o => 8
  | x | upperX => 16

/-- Digits after 9 are letters from `a` on, or from `A` on. -/
def lowerDigit (k : ℕ) : UInt8 := UInt8.ofNat (if k < 10 then 48 + k else 97 + (k - 10))

def upperDigit (k : ℕ) : UInt8 := UInt8.ofNat (if k < 10 then 48 + k else 65 + (k - 10))

def UnsignedConversion.digit : UnsignedConversion → ℕ → UInt8
  | upperX => upperDigit
  | u | o | x => lowerDigit

/-- A piece of a format, with its argument if it takes one. -/
inductive Directive
  | literal (c : UInt8) (ne_zero : c ≠ 0) (ne_percent : c ≠ 37)
  | percent
  | char (arg : UInt32)
  | string (ptr : UInt32) (bytes : List UInt8)
  | signed (conversion : SignedConversion) (length : IntLength) (ne_z : length ≠ .z)
      (value : BitVec length.bits)
  | unsigned (conversion : UnsignedConversion) (length : IntLength) (ne_t : length ≠ .t)
      (value : BitVec length.bits)

/-- The words an integer argument is pushed as, the low one first. -/
def argWords {n : ℕ} (v : BitVec n) : List UInt32 :=
  (List.range (n / 32)).map fun k => UInt32.ofBitVec (v.extractLsb' (32 * k) 32)

namespace Directive

/-- How the piece is written in the format. -/
def text : Directive → List UInt8
  | literal c _ _ => [c]
  | percent => [37, 37]
  | char _ => [37, 99]
  | string _ _ => [37, 115]
  | signed conversion length _ _ => 37 :: (length.name ++ [conversion.char])
  | unsigned conversion length _ _ => 37 :: (length.name ++ [conversion.char])

/-- The argument words it takes. -/
def words : Directive → List UInt32
  | literal _ _ _ | percent => []
  | char arg => [arg]
  | string ptr _ => [ptr]
  | signed _ _ _ value => argWords value
  | unsigned _ _ _ value => argWords value

/-- **What it prints**: an integer in the standard rendering of its value. -/
def output : Directive → List UInt8
  | literal c _ _ => [c]
  | percent => [37]
  | char arg => [arg.toUInt8]
  | string _ bytes => bytes
  | signed _ _ _ value =>
    (if value.toInt < 0 then [45] else []) ++ numeral lowerDigit 10 value.toInt.natAbs
  | unsigned conversion _ _ value => numeral conversion.digit conversion.base value.toNat

/-- The argument is what it is said to be. -/
def Matches (mem : Mem) : Directive → Prop
  | string ptr bytes => StringAt mem ptr bytes
  | _ => True

end Directive

end CometOS
