import Reach.Text.Invisible

/-!
Two ways to write a string between double quotes: for readers, where characters without a glyph are
written by their code point, and for JSON documents, where only control characters are.
-/

namespace Reach.Text

def hexadecimal (n : Nat) : String :=
  String.ofList (Nat.toDigits 16 n)

/-- How a character stands in a string that is written for a reader. -/
def visible (c : Char) : String :=
  match c with
  | '\"' => "\\\""
  | '\\' => "\\\\"
  | '\t' => "\\t"
  | '\n' => "\\n"
  | '\r' => "\\r"
  | '\x00' => "\\0"
  | c =>
    if invisible c then "\\u\x7b" ++ hexadecimal c.toNat ++ "\x7d" else c.toString

/-- How a character stands in a JSON string: a control character without an escape of its own is
written with four hexadecimal digits. -/
def jsonEscape (c : Char) : String :=
  match c with
  | '\"' => "\\\""
  | '\\' => "\\\\"
  | '\x08' => "\\b"
  | '\x0c' => "\\f"
  | '\n' => "\\n"
  | '\r' => "\\r"
  | '\t' => "\\t"
  | c =>
    if c.toNat < 16 then "\\u000" ++ hexadecimal c.toNat
    else if c.toNat < 32 then "\\u00" ++ hexadecimal c.toNat
    else c.toString

def enclose (write : Char → String) (text : String) : String :=
  "\"" ++ String.join (text.toList.map write) ++ "\""

def quoted (text : String) : String :=
  enclose visible text

def jsonString (text : String) : String :=
  enclose jsonEscape text

end Reach.Text
