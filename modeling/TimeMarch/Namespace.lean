/-!
# Namespaces of Variables

A variable's name starts with a tag in angle brackets that says what kind of variable it is, or with
none for a variable of one state's computation. Splitting a name gives its namespace and the rest of
the name.
-/

namespace TimeMarch

/-- The name of the current time. -/
def timeName : String := "<t>"

/-- The name of the step size. -/
def stepSizeName : String := "<dt>"

/-- The tag of solution components. -/
def stateTag : String := "<state>"

/-- The tag of functions that the host supplies. -/
def functionTag : String := "<func>"

inductive Namespace where
  | time
  | stepSize
  | state
  | global
  | returnMarker
  | function
  | temporary
  deriving Repr, DecidableEq

namespace Namespace

/-- Whether values survive the end of a step. -/
def isPersistent : Namespace → Bool
  | function | temporary => false
  | _ => true

/-- The word for a namespace in identifiers. -/
def tag : Namespace → String
  | time => "t"
  | stepSize => "dt"
  | state => "state"
  | global => "global"
  | returnMarker => "ret"
  | function => "func"
  | temporary => "local"

end Namespace

namespace Name

/-- What follows a leading tag. -/
def afterTag? (tag name : String) : Option String :=
  (tag.toList.isPrefixOf? name.toList).map String.ofList

/-- The namespaces that a leading tag selects, with the word that is kept in front of the rest. -/
def tags : List (String × Namespace × String) :=
  [(stateTag, .state, ""), ("<p>", .global, ""), ("<ret_time_id>", .returnMarker, "time_id"),
    ("<ret_time>", .returnMarker, "time"), ("<ret_state>", .returnMarker, "state"),
    (functionTag, .function, "")]

/-- A word and the rest of a name, with an underscore between them if both are there. -/
def joined (word rest : String) : String :=
  if word.isEmpty then rest else if rest.isEmpty then word else word ++ "_" ++ rest

/-- The first tag in the list that the name starts with decides. -/
def splitBy : List (String × Namespace × String) → String → Namespace × String
  | [], name => (.temporary, name)
  | (tag, space, word) :: more, name =>
    match afterTag? tag name with
    | some rest => (space, joined word rest)
    | none => splitBy more name

/-- The namespace of a variable and the rest of its name. -/
def split (name : String) : Namespace × String :=
  if name = timeName then (.time, "")
  else if name = stepSizeName then (.stepSize, "")
  else splitBy tags name

def space (name : String) : Namespace := (split name).1

/-- The identifier one would like a variable to have. It need not be a legal one. -/
def natural (name : String) : String :=
  match split name with
  | (.temporary, rest) => rest
  | (space, rest) => joined space.tag rest

end Name

end TimeMarch
