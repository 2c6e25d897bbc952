import Rota.Text.Printable

/-!
# Quoted text

A quoted text stands between double quotes. Quotes, backslashes, tabs, line ends and the null character have short
escapes, any other character that is not printable is written by its code point in hexadecimal.
-/

namespace Rota.Text

/-- The way a character is written between quotes. -/
def escape (c : Char) : String :=
  match c with
  | '\x00' => "\\0"
  | '\t' => "\\t"
  | '\r' => "\\r"
  | '\n' => "\\n"
  | '"' => "\\\""
  | '\\' => "\\\\"
  | c =>
    if isPrintable c then c.toString
    else "\\u\x7b" ++ String.ofList (Nat.toDigits 16 c.toNat) ++ "\x7d"

def quoted (s : String) : String := "\"" ++ String.join (s.toList.map escape) ++ "\""

end Rota.Text
