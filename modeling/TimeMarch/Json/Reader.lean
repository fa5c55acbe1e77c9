import TimeMarch.Json
import TimeMarch.Json.Number

/-!
# Reading JSON

A reader takes a value from the front of a text and returns the rest. Objects and arrays may be
nested up to a limit. Nothing but blanks may follow the value of a whole text.
-/

namespace TimeMarch.Json

def isBlank (c : Char) : Bool := c == ' ' || c == '\n' || c == '\t' || c == '\r'

def skipBlanks (cs : List Char) : List Char := cs.dropWhile isBlank

def isDecimalDigit (c : Char) : Bool := '0' ≤ c && c ≤ '9'

/-- Some digits and what follows them. -/
def digits (cs : List Char) : List Char × List Char :=
  (cs.takeWhile isDecimalDigit, cs.dropWhile isDecimalDigit)

/-- At least one digit and what follows. -/
def digits? (cs : List Char) : Option (List Char × List Char) :=
  let (ds, rest) := digits cs
  if ds.isEmpty then none else some (ds, rest)

/-- The exponent of a number, if there is one. -/
def readExponent (cs : List Char) : Option (Option (Bool × List Char) × List Char) :=
  match cs with
  | 'e' :: rest | 'E' :: rest =>
    let (negative, rest) := match rest with
      | '-' :: rest => (true, rest)
      | '+' :: rest => (false, rest)
      | rest => (false, rest)
    (digits? rest).map fun (ds, rest) => (some (negative, ds), rest)
  | _ => some (none, cs)

/-- The fraction of a number, which is empty without a point. -/
def readFraction (cs : List Char) : Option (List Char × List Char) :=
  match cs with
  | '.' :: rest => digits? rest
  | _ => some ([], cs)

/-- A number. Its whole part has no superfluous zero in front. -/
def readNumber (cs : List Char) : Option (Float × List Char) := do
  let (negative, cs) := match cs with
    | '-' :: cs => (true, cs)
    | cs => (false, cs)
  let (whole, cs) ← digits? cs
  if whole.head? = some '0' ∧ whole ≠ ['0'] then none
  let (fraction, cs) ← readFraction cs
  let (exponent, cs) ← readExponent cs
  let x ← ({ negative, whole, fraction, exponent } : NumberText).value?
  return (x, cs)

def hexValue? (c : Char) : Option Nat :=
  if '0' ≤ c ∧ c ≤ '9' then some (c.toNat - '0'.toNat)
  else if 'a' ≤ c ∧ c ≤ 'f' then some (c.toNat - 'a'.toNat + 10)
  else if 'A' ≤ c ∧ c ≤ 'F' then some (c.toNat - 'A'.toNat + 10)
  else none

/-- Four hexadecimal digits. -/
def readUnit : List Char → Option (Nat × List Char)
  | a :: b :: c :: d :: rest => do
    return ((← hexValue? a) * 4096 + (← hexValue? b) * 256 + (← hexValue? c) * 16 + (← hexValue? d),
      rest)
  | _ => none

/-- The character of a `\u` escape. One beyond the first plane takes two escapes, of which neither
stands alone. -/
def readEscapedUnit (cs : List Char) : Option (Char × List Char) := do
  let (high, rest) ← readUnit cs
  if high < 0xd800 ∨ 0xdfff < high then return (Char.ofNat high, rest)
  else if 0xdc00 ≤ high then none
  else match rest with
    | '\\' :: 'u' :: rest =>
      let (low, rest) ← readUnit rest
      if low < 0xdc00 ∨ 0xdfff < low then none
      else return (Char.ofNat (0x10000 + (high - 0xd800) * 0x400 + (low - 0xdc00)), rest)
    | _ => none

/-- The character of an escape, behind its backslash. -/
def readEscape : List Char → Option (Char × List Char)
  | '"' :: rest => some ('"', rest)
  | '\\' :: rest => some ('\\', rest)
  | '/' :: rest => some ('/', rest)
  | 'b' :: rest => some ('\x08', rest)
  | 'f' :: rest => some ('\x0c', rest)
  | 'n' :: rest => some ('\n', rest)
  | 'r' :: rest => some ('\r', rest)
  | 't' :: rest => some ('\t', rest)
  | 'u' :: rest => readEscapedUnit rest
  | _ => none

/-- The characters of a string up to its closing quote, `fuel` many at most. -/
def readChars : (fuel : Nat) → List Char → (done : List Char) → Option (String × List Char)
  | 0, _, _ => none
  | fuel + 1, cs, done =>
    match cs with
    | '"' :: rest => some (String.ofList done.reverse, rest)
    | '\\' :: rest => do
      let (c, rest) ← readEscape rest
      readChars fuel rest (c :: done)
    | c :: rest => if c.toNat < 0x20 then none else readChars fuel rest (c :: done)
    | [] => none

/-- A string, behind its opening quote. -/
def readString (cs : List Char) : Option (String × List Char) := readChars (cs.length + 1) cs []

/-- How deep objects and arrays may be nested. -/
def nestingLimit : Nat := 127

mutual

/-- A value; `depth` more objects and arrays may be opened. -/
def readValue (depth : Nat) : (fuel : Nat) → List Char → Option (Json × List Char)
  | 0, _ => none
  | fuel + 1, cs =>
    match skipBlanks cs with
    | 'n' :: 'u' :: 'l' :: 'l' :: rest => some (.null, rest)
    | 't' :: 'r' :: 'u' :: 'e' :: rest => some (.bool true, rest)
    | 'f' :: 'a' :: 'l' :: 's' :: 'e' :: rest => some (.bool false, rest)
    | '"' :: rest => (readString rest).map fun (s, rest) => (.string s, rest)
    | '[' :: rest =>
      if depth = 0 then none
      else match skipBlanks rest with
        | ']' :: rest => some (.array [], rest)
        | rest => (readItems (depth - 1) fuel rest).map fun (items, rest) => (.array items, rest)
    | '\x7b' :: rest =>
      if depth = 0 then none
      else match skipBlanks rest with
        | '\x7d' :: rest => some (.object [], rest)
        | rest => (readMembers (depth - 1) fuel rest).map fun (ms, rest) => (.object ms, rest)
    | cs => (readNumber cs).map fun (x, rest) => (.number x, rest)

/-- One or more items and the bracket behind them. -/
def readItems (depth : Nat) : (fuel : Nat) → List Char → Option (List Json × List Char)
  | 0, _ => none
  | fuel + 1, cs => do
    let (item, cs) ← readValue depth fuel cs
    match skipBlanks cs with
    | ',' :: cs =>
      let (items, cs) ← readItems depth fuel cs
      return (item :: items, cs)
    | ']' :: cs => return ([item], cs)
    | _ => none

/-- One or more members and the brace behind them. -/
def readMembers (depth : Nat) :
    (fuel : Nat) → List Char → Option (List (String × Json) × List Char)
  | 0, _ => none
  | fuel + 1, cs => do
    let '"' :: cs := skipBlanks cs | none
    let (name, cs) ← readString cs
    let ':' :: cs := skipBlanks cs | none
    let (value, cs) ← readValue depth fuel cs
    match skipBlanks cs with
    | ',' :: cs =>
      let (members, cs) ← readMembers depth fuel cs
      return ((name, value) :: members, cs)
    | '\x7d' :: cs => return ([(name, value)], cs)
    | _ => none

end

/-- The value of a whole text. Every round takes a character, or follows one that did. -/
def ofText? (text : String) : Option Json := do
  let cs := text.toList
  let (value, rest) ← readValue nestingLimit (2 * cs.length + 2) cs
  if (skipBlanks rest).isEmpty then return value else none

end TimeMarch.Json
