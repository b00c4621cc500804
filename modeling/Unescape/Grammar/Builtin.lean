import Unescape.Grammar.Basic

set_option autoImplicit false

/-! # Built-in grammars

The string literals of two languages that embed other languages often: Java, and the text format
of protocol buffers. `builtin?` finds them by name; settings start from one of them. -/

namespace Unescape

namespace Grammar

/-- Java string literals: nine letters, octal up to `\377`, and four digits behind a `u` that may
    repeat. -/
def java : Grammar :=
  ((empty "java").withSimples
      [('b', '\x08'), ('t', '\t'), ('n', '\n'), ('f', '\x0c'), ('r', '\r'), ('s', ' '),
        ('"', '"'), ('\x27', '\x27'), ('\\', '\\')]).withOctal (some OctalEscape.standard)
    |>.withNumeric (NumericEscape.fixed 'u' 4).repeatable

/-- Literals of the protocol buffers text format: eleven letters, octal up to `\377`, `\x` with one
    or two digits, `\u` with four and `\U` with eight. -/
def proto : Grammar :=
  ((empty "proto").withSimples
      [('a', '\x07'), ('b', '\x08'), ('f', '\x0c'), ('n', '\n'), ('r', '\r'), ('t', '\t'),
        ('v', '\x0b'), ('\\', '\\'), ('\x27', '\x27'), ('"', '"'), ('?', '?')]).withOctal
      (some OctalEscape.standard)
    |>.withNumeric (NumericEscape.between 'x' 1 2)
    |>.withNumeric (NumericEscape.fixed 'u' 4)
    |>.withNumeric (NumericEscape.fixed 'U' 8)

/-- The built-in grammar of a name; the text format has a long and a short one. -/
def builtin? (name : String) : Option Grammar :=
  if name = "java" then some java
  else if name = "proto" ∨ name = "protobuf" then some proto
  else none

/-- The built-in grammar that settings start from when they name none. -/
def defaultName : String := "java"

theorem builtin?_defaultName : builtin? defaultName = some java := by simp [builtin?, defaultName]

/-- The names under which built-in grammars are listed. -/
def builtinNames : List String := ["java", "proto"]

end Grammar

end Unescape
