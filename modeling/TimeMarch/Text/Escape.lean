import TimeMarch.Text.Printable

/-!
# Escaped Text

Lists of names inside messages are quoted, so that a name with a quote, a line break or an invisible
character can still be told from its neighbours.
-/

namespace TimeMarch.Text

def hex (n : Nat) : String := String.ofList (Nat.toDigits 16 n)

/-- How one character is written inside quotes. -/
def escape (c : Char) : String :=
  match c with
  | '\x00' => "\\0"
  | '\t' => "\\t"
  | '\r' => "\\r"
  | '\n' => "\\n"
  | '\\' => "\\\\"
  | '"' => "\\\""
  | _ => if isPrintable c then c.toString else "\\u\x7b" ++ hex c.toNat ++ "\x7d"

def quoted (s : String) : String :=
  "\"" ++ String.join (s.toList.map escape) ++ "\""

/-- The texts with a separator between neighbours. -/
def separated (separator : String) (texts : List String) : String :=
  separator.intercalate texts

end TimeMarch.Text
