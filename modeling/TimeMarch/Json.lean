import TimeMarch.Decimal.Layout
import TimeMarch.Text.Escape

/-!
# JSON

The values of JSON texts, and how strings and numbers are written in them. An object keeps its
members in the order of the text, repeated names included.
-/

namespace TimeMarch

inductive Json where
  | null
  | bool (b : Bool)
  | number (x : Float)
  | string (s : String)
  | array (items : List Json)
  | object (members : List (String × Json))

namespace Json

/-- Short escapes where there are any, four hexadecimal digits for other control characters, and
every other character as it is. -/
def escape (c : Char) : String :=
  match c with
  | '"' => "\\\""
  | '\\' => "\\\\"
  | '\n' => "\\n"
  | '\r' => "\\r"
  | '\t' => "\\t"
  | '\x08' => "\\b"
  | '\x0c' => "\\f"
  | _ =>
    if c.toNat < 0x20 then
      let digits := Text.hex c.toNat
      "\\u" ++ Layout.zeros (4 - digits.length) ++ digits
    else c.toString

def quote (s : String) : String := "\"" ++ String.join (s.toList.map escape) ++ "\""

/-- Numbers keep a point and turn to exponents beyond sixteen digits or five leading zeros. What is
not a number is written as null. -/
def layout : Layout where
  tie := .even
  positional := fun e => -5 ≤ e ∧ e ≤ 15
  whole := ".0"
  nan := "null"
  infinity := "null"
  negativeInfinity := "null"

/-- An object with the members' values written out already. -/
def objectText (members : List (String × String)) : String :=
  "\x7b" ++ Text.separated "," (members.map fun (name, text) => quote name ++ ":" ++ text) ++ "\x7d"

def arrayText (items : List String) : String := "[" ++ Text.separated "," items ++ "]"

end Json

end TimeMarch
