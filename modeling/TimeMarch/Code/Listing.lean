import TimeMarch.Code

/-!
# Listings

A listing shows code for people. Operands appear as the identifiers they stand for, jump targets as
line numbers; what an operand does not find is a question mark.
-/

namespace TimeMarch

/-- A number with at least four digits. -/
def fourDigits (n : Nat) : String :=
  let digits := toString n
  Layout.zeros (4 - digits.length) ++ digits

def UnaryOp.mnemonic : UnaryOp → String
  | neg => "neg"
  | not => "not"

def BinaryOp.mnemonic : BinaryOp → String
  | add => "add"
  | sub => "sub"
  | mul => "mul"
  | div => "div"
  | pow => "pow"
  | eq => "eq"
  | ne => "ne"
  | lt => "lt"
  | le => "le"
  | gt => "gt"
  | ge => "ge"
  | and => "and"
  | or => "or"

namespace Code

/-- One operation, standing at the given line of a state. -/
def opText (c : Code) (locals : SymbolTable) (line : Nat) : Op → String
  | .literal i => "push " ++ ((c.literals[i]?).map Value.text).getD "?"
  | .loadPersistent slot => "load " ++ c.persistent.ident slot
  | .loadLocal slot => "load " ++ locals.ident slot
  | .storePersistent slot => "store " ++ c.persistent.ident slot
  | .storeLocal slot => "store " ++ locals.ident slot
  | .unary op => op.mnemonic
  | .binary op => op.mnemonic
  | .jumpIfFalse offset => "if_false " ++ fourDigits (line + 1 + offset)
  | .jump offset => "jump " ++ fourDigits (line + 1 + offset)
  | .call function arity keywords =>
    let names := match keywords.bind fun k => c.keywordSets[k]? with
      | some names => " [" ++ Text.separated ", " names ++ "]"
      | none => ""
    "call " ++ c.functions.ident function ++ "/" ++ toString arity ++ names
  | .emit component timeId => "emit " ++ c.labels.ident component ++ " @ " ++ c.labels.ident timeId
  | .abort => "fail"
  | .raise i => "raise " ++ match c.raises[i]? with
    | some (kind, message) => kind ++ ": " ++ message
    | none => "?"
  | .transition state => "goto " ++ c.stateName state
  | .complete => "complete"

/-- A table of symbols under a title, or nothing for an empty table. -/
def tableLines (title : String) (t : SymbolTable) : List String :=
  if t.size = 0 then []
  else (title ++ ":") :: t.toList.map fun (name, ident) => "  " ++ ident ++ " = " ++ name

def stateLines (c : Code) (i : Nat) (s : StateCode) : List String :=
  let initial := if i = c.initial then " (initial)" else ""
  let title := "state " ++ s.name ++ " -> " ++ c.stateName s.next ++ initial ++ ":"
  let locals := if s.locals.size = 0 then []
    else ["  locals: " ++ Text.separated ", " (s.locals.toList.map Prod.snd)]
  let ops := s.ops.toList.zipIdx.map fun (op, line) =>
    "  " ++ fourDigits line ++ " " ++ c.opText s.locals line op
  title :: locals ++ ops

def lines (c : Code) : List String :=
  tableLines "persistent" c.persistent ++ tableLines "functions" c.functions ++
    tableLines "labels" c.labels ++
    (c.states.values.zipIdx.flatMap fun (s, i) => c.stateLines i s)

def listing (c : Code) : String := String.join (c.lines.map (· ++ "\n"))

end Code

end TimeMarch
