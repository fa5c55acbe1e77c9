/-!
# Names and Identifiers

Variables have names of any form; generated code has identifiers, which are ASCII and do not start
with a digit. `sanitize` maps a name to an identifier, not injectively, and `fresh` tells clashes
apart by counting up.
-/

namespace TimeMarch.Name

def isLetter (c : Char) : Bool := c.isAlpha || c == '_'

def isLetterOrDigit (c : Char) : Bool := c.isAlphanum || c == '_'

/-- Whether a list of characters spells an identifier. -/
def isLegalList : List Char → Bool
  | [] => false
  | c :: cs => isLetter c && cs.all isLetterOrDigit

/-- Identifiers are ASCII letters, digits and underscores, and do not start with a digit. -/
def isLegal (name : String) : Bool := isLegalList name.toList

/-- Every other character becomes an underscore; a digit is not left in front. -/
def sanitizeList (cs : List Char) : List Char :=
  match cs.map fun c => if c.isAlphanum then c else '_' with
  | [] => ['_']
  | c :: rest => if c.isDigit then '_' :: c :: rest else c :: rest

def sanitize (name : String) : String := String.ofList (sanitizeList name.toList)

/-- The first of `stem ++ k`, `stem ++ (k + 1)`, … that is not taken, looking at `rounds` of them
before the last one is returned unseen. -/
def probe (taken : String → Bool) (stem : String) : (k rounds : Nat) → String
  | k, 0 => stem ++ toString k
  | k, rounds + 1 =>
    if taken (stem ++ toString k) then probe taken stem (k + 1) rounds else stem ++ toString k

/-- The stem if it is free, else the first free one of the stem with a number behind it. `bound` is
at least the number of taken names, so that one of the names looked at is free. -/
def fresh (taken : String → Bool) (bound : Nat) (stem : String) : String :=
  if taken stem then probe taken stem 0 bound else stem

end TimeMarch.Name
