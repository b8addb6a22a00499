import CometOS.Keyboard
import CometOS.PrintfOutput
import CometOS.TerminalPage

/-!
# The console (`libc/stdio/putchar.c`, `libc/stdio/puts.c`, `kernel/kernel/kb.c`)

What is printed and what is typed comes to the screen the same way, one `terminal_putchar` after the
other.  Where the compiler has put the strings of `puts.c` and `kb.c` is a parameter.
-/

namespace CometOS

open ByteMemory CString Run

/-! ### The code -/

/-- `putchar`, of the kernel. -/
def putchar (ic : UInt8) (t : Terminal) : Terminal := terminalWrite [ic.toInt8] t

structure Console where
  terminal : Terminal
  keyboard : Keyboard

/-- `"%s\n"` of `puts`, and `"Addr:%x\n"` of `keyboard_handler`. -/
structure ConsoleStrings where
  puts : UInt32
  addr : UInt32

/-- `printf`, with what it passes to `putchar`. -/
def Console.printf (mem : Mem) (format : UInt32) (parameters : List UInt32) (s : Console) :
    Option Console :=
  (CometOS.printf mem format parameters).map fun r =>
    { s with terminal := r.out.foldl (fun t ic => putchar ic t) s.terminal }

/-- `puts`. -/
def Console.puts (mem : Mem) (strings : ConsoleStrings) (string : UInt32) (s : Console) :
    Option Console :=
  s.printf mem strings.puts [string]

/-- What `keyboard_handler` does with a key; `addr` is what the allocation returns.  The read of an
address with no page does not come back. -/
def Console.act (mem : Mem) (strings : ConsoleStrings) (addr : UInt32) (s : Console) :
    KeyAction → Option Console
  | .pageFault => none
  | .heapAlloc _ => s.printf mem strings.addr [addr]
  | .kmalloc _ => s.printf mem strings.addr [addr]
  | .terminalPutchar c => some { s with terminal := terminalPutchar c.toInt8 s.terminal }

/-- A call of `printf` with a format in pieces, a call of `puts`, or a scancode. -/
inductive ConsoleOp
  | printf (format : UInt32) (ds : List Directive) (extra : List UInt32)
  | puts (string : UInt32) (bytes : List UInt8)
  | key (scancode : UInt8) (addr : UInt32)

def consoleStep (mem : Mem) (strings : ConsoleStrings) (s : Console) : ConsoleOp → Option Console
  | .printf format ds extra => s.printf mem format (ds.flatMap Directive.words ++ extra)
  | .puts string _ => s.puts mem strings string
  | .key scancode addr =>
    let s := { s with keyboard := keyboardHandler scancode s.keyboard }
    if IsKey scancode then s.act mem strings addr (keyAction scancode) else some s

/-! ### What is to be seen -/

/-- The pieces of `"Addr:%x\n"`. -/
def addrDirectives (addr : UInt32) : List Directive :=
  [.literal 65 (by decide) (by decide), .literal 100 (by decide) (by decide),
    .literal 100 (by decide) (by decide), .literal 114 (by decide) (by decide),
    .literal 58 (by decide) (by decide), .unsigned .x .none (by decide) addr.toBitVec,
    .literal 10 (by decide) (by decide)]

/-- Those of `"%s\n"`. -/
def putsDirectives (string : UInt32) (bytes : List UInt8) : List Directive :=
  [.string string bytes, .literal 10 (by decide) (by decide)]

/-- The strings are where they should be. -/
structure ConsoleStrings.At (strings : ConsoleStrings) (mem : Mem) : Prop where
  puts : StringAt mem strings.puts [37, 115, 10]
  addr : StringAt mem strings.addr [65, 100, 100, 114, 58, 37, 120, 10]

namespace ConsoleOp

/-- What it adds to the text: the pieces as `printf` prints them, and for a key its character. -/
def output : ConsoleOp → List UInt8
  | printf _ ds _ => ds.flatMap Directive.output
  | puts _ bytes => bytes ++ [10]
  | key scancode addr =>
    if IsKey scancode then
      match keyAction scancode with
      | .pageFault => []
      | .heapAlloc _ => (addrDirectives addr).flatMap Directive.output
      | .kmalloc _ => (addrDirectives addr).flatMap Directive.output
      | .terminalPutchar c => [c]
    else []

/-- Formats and arguments match, a key is not the one that faults, and nothing goes back. -/
def Ok (mem : Mem) (op : ConsoleOp) : Prop :=
  8 ∉ op.output ∧
  match op with
  | printf format ds _ => StringAt mem format (ds.flatMap Directive.text) ∧ ∀ d ∈ ds, d.Matches mem
  | puts string bytes => StringAt mem string bytes
  | key scancode _ => IsKey scancode = true → keyAction scancode ≠ .pageFault

/-- The scancode, of a key. -/
def scancode? : ConsoleOp → Option UInt8
  | key scancode _ => some scancode
  | _ => none

end ConsoleOp

/-- The page that the text makes, starting from `p`. -/
def pageOf (p : TextPage UInt8) (text : List UInt8) : TextPage UInt8 :=
  text.foldl (fun p c => pagePutchar c.toInt8 p) p

/-! ### The steps -/

section Steps

variable {mem : Mem} {strings : ConsoleStrings} {s : Console} {p : TextPage UInt8} {op : ConsoleOp}

theorem argWords_word (v : UInt32) : argWords v.toBitVec = [v] := by
  have hself : v.toBitVec.extractLsb' (32 * 0) 32 = v.toBitVec := BitVec.extractLsb'_eq_self
  show [UInt32.ofBitVec (v.toBitVec.extractLsb' (32 * 0) 32)] = [v]
  rw [hself]

theorem toInt8_ne {c : UInt8} (h : c ≠ 8) : c.toInt8 ≠ 8 := by
  intro hc
  apply h
  rw [← UInt8.toUInt8_toInt8 c, hc]
  rfl

/-- A text that is printed shows on the page. -/
theorem print_shows {t : Terminal} (h : Shows t p) (text : List UInt8) (h8 : 8 ∉ text) :
    Shows (text.foldl (fun t ic => putchar ic t) t) (pageOf p text) := by
  induction text generalizing t p with
  | nil => exact h
  | cons c text ih =>
    rw [List.mem_cons, not_or] at h8
    exact ih (h.putchar (toInt8_ne (Ne.symm h8.1))) h8.2

theorem printf_shows (h : Shows s.terminal p) {format : UInt32} {ds : List Directive}
    (extra : List UInt32) (hformat : StringAt mem format (ds.flatMap Directive.text))
    (hmatches : ∀ d ∈ ds, d.Matches mem) (h8 : 8 ∉ ds.flatMap Directive.output) :
    ∃ s', s.printf mem format (ds.flatMap Directive.words ++ extra) = some s' ∧
      Shows s'.terminal (pageOf p (ds.flatMap Directive.output)) ∧ s'.keyboard = s.keyboard := by
  have hlen : ds.length < 2 ^ 32 := (length_le_text ds).trans_lt hformat.length_lt
  obtain ⟨r, hr, hout⟩ := @printf_loop mem extra (2 ^ 32) ds
    { format, parameters := ds.flatMap Directive.words ++ extra, written := 0
      rejectedBadSpecifier := false, out := [] } hlen ⟨hformat, rfl, rfl, hmatches⟩
  refine ⟨{ s with terminal := r.out.foldl (fun t ic => putchar ic t) s.terminal }, ?_, ?_, rfl⟩
  · rw [Console.printf, CometOS.printf, hr, Option.map_some]
  · rw [hout, List.nil_append]
    exact print_shows h _ h8

theorem puts_shows (h : Shows s.terminal p) (hstrings : strings.At mem) {string : UInt32}
    {bytes : List UInt8} (hbytes : StringAt mem string bytes) (h8 : 8 ∉ bytes ++ [10]) :
    ∃ s', s.printf mem strings.puts [string] = some s' ∧
      Shows s'.terminal (pageOf p (bytes ++ [10])) ∧ s'.keyboard = s.keyboard :=
  @printf_shows _ _ _ h _ (putsDirectives string bytes) [] hstrings.puts (by
    intro d hd
    rcases List.mem_cons.1 hd with rfl | hd
    · exact hbytes
    · rw [List.mem_singleton.1 hd]
      trivial) h8

theorem addr_shows (h : Shows s.terminal p) (hstrings : strings.At mem) (addr : UInt32)
    (h8 : 8 ∉ (addrDirectives addr).flatMap Directive.output) :
    ∃ s', s.printf mem strings.addr [addr] = some s' ∧
      Shows s'.terminal (pageOf p ((addrDirectives addr).flatMap Directive.output)) ∧
        s'.keyboard = s.keyboard := by
  have hwords : (addrDirectives addr).flatMap Directive.words ++ [] = [addr] := by
    rw [List.append_nil]
    exact congrArg (· ++ []) (argWords_word addr)
  rw [← hwords]
  refine printf_shows h [] hstrings.addr ?_ h8
  intro d hd
  simp only [addrDirectives, List.mem_cons, List.not_mem_nil, or_false] at hd
  rcases hd with rfl | rfl | rfl | rfl | rfl | rfl | rfl <;> trivial

/-- **One call or scancode.** -/
theorem ConsoleOp.shows (hstrings : strings.At mem) (h : Shows s.terminal p) (hop : op.Ok mem) :
    ∃ s', consoleStep mem strings s op = some s' ∧ Shows s'.terminal (pageOf p op.output) ∧
      s'.keyboard = op.scancode?.toList.foldl (fun k c => keyboardHandler c k) s.keyboard := by
  obtain ⟨h8, hop⟩ := hop
  cases op with
  | printf format ds extra => exact printf_shows h extra hop.1 hop.2 h8
  | puts string bytes => exact puts_shows h hstrings hop h8
  | key scancode addr =>
    rw [consoleStep]
    by_cases hkey : IsKey scancode = true
    · rw [if_pos hkey]
      rw [ConsoleOp.output, if_pos hkey] at h8 ⊢
      have hfault := hop hkey
      cases haction : keyAction scancode with
      | pageFault => exact absurd haction hfault
      | heapAlloc size =>
        rw [haction] at h8
        exact addr_shows (s := { s with keyboard := keyboardHandler scancode s.keyboard }) h hstrings addr h8
      | kmalloc size =>
        rw [haction] at h8
        exact addr_shows (s := { s with keyboard := keyboardHandler scancode s.keyboard }) h hstrings addr h8
      | terminalPutchar c =>
        rw [haction, List.mem_singleton] at h8
        exact ⟨_, rfl, h.putchar (toInt8_ne (Ne.symm h8)), rfl⟩
    · rw [if_neg hkey]
      refine ⟨_, rfl, ?_, rfl⟩
      rw [ConsoleOp.output, if_neg hkey]
      exact h

end Steps

/-! ### Runs -/

section Runs

variable {mem : Mem} {strings : ConsoleStrings} {s : Console} {p : TextPage UInt8}

end Runs

end CometOS
