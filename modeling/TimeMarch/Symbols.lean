import TimeMarch.CodeError
import TimeMarch.Name
import TimeMarch.Namespace
import TimeMarch.Roster
import Std.Data.TreeSet

/-!
# Symbol Tables

A symbol table gives each name a slot, in the order of first mention, and an identifier that no
other name of the table has. A name keeps its natural form where that is a legal identifier and
free; else its sanitised form is numbered until it is free. Reserved words are never free.
-/

namespace TimeMarch

/-- Names in slot order with their identifiers; `used` holds the identifiers. -/
structure SymbolTable where
  symbols : Roster String := .empty
  used : Std.TreeSet String := ∅

namespace SymbolTable

instance : Inhabited SymbolTable := ⟨{}⟩

def size (t : SymbolTable) : Nat := t.symbols.size

def toList (t : SymbolTable) : List (String × String) := t.symbols.toList

def slot? (t : SymbolTable) (name : String) : Option Nat := t.symbols.place? name

/-- The name in a slot, a question mark where there is none. -/
def name (t : SymbolTable) (slot : Nat) : String :=
  ((t.symbols.entries[slot]?).map Prod.fst).getD "?"

/-- The identifier in a slot, a question mark where there is none. -/
def ident (t : SymbolTable) (slot : Nat) : String :=
  ((t.symbols.entries[slot]?).map Prod.snd).getD "?"

/-- The identifier for a new name. -/
def newIdent (reserved : Std.TreeSet String) (used : Std.TreeSet String) (name : String) : String :=
  let taken n := used.contains n || reserved.contains n
  let natural := Name.natural name
  if Name.isLegal natural && !taken natural then natural
  else Name.fresh taken (used.size + reserved.size) (Name.sanitize natural)

/-- Ask for the slot of a name, which is a new one at first sight. The table is returned as the
request leaves it, also when there is no slot to give. -/
def request (reserved : Std.TreeSet String) (name : String) :
    SymbolTable → Except CodeError Nat × SymbolTable
  | ⟨symbols, used⟩ =>
    match h : symbols.place? name with
    | some slot => (operand .symbol slot, ⟨symbols, used⟩)
    | none =>
      let ident := newIdent reserved used name
      match operand .symbol symbols.size with
      | .ok slot => (.ok slot, ⟨symbols.push name ident h, used.insert ident⟩)
      | .error e => (.error e, ⟨symbols, used⟩)

/-- The slot of a name and the table that has it. -/
def intern (reserved : Std.TreeSet String) (name : String) (t : SymbolTable) :
    Except CodeError (Nat × SymbolTable) :=
  match t.request reserved name with
  | (.ok slot, t) => .ok (slot, t)
  | (.error e, _) => .error e

/-- The table of the names in a list. -/
def ofList (names : List String) : Except CodeError SymbolTable :=
  names.foldlM (fun t n => return (← t.intern ∅ n).2) {}

end SymbolTable

/-- The words that identifiers do not take unless told otherwise: those of the listing. -/
def defaultReserved : List String :=
  ["if", "else", "end", "emit", "fail", "raise", "goto", "jump", "complete", "call", "load",
    "store", "push"]

/-- The set of the reserved words, all of which are to be identifiers themselves. -/
def reservedSet (words : List String) : Except CodeError (Std.TreeSet String) :=
  match words.find? fun w => !Name.isLegal w with
  | some bad => .error (.illegalReserved bad)
  | none => .ok (Std.TreeSet.ofList words)

end TimeMarch
