import TimeMarch.Value
import TimeMarch.NameSet

/-!
# Expressions

Literals, variables, operators, calls of host functions with positional and keyword arguments, and a
conditional expression. All that ordering and naming need to know of an expression is which names it
mentions; they are collected in front of a list, so that long chains of operators cost no copying.
-/

namespace TimeMarch

inductive Expr where
  | literal (value : Value)
  | var (name : String)
  | unary (op : UnaryOp) (operand : Expr)
  | binary (op : BinaryOp) (left right : Expr)
  | call (function : String) (args : List Expr) (keywords : List (String × Expr))
  | cond (condition yes no : Expr)

/-- A place where an expression mentions a name. -/
inductive Mention where
  | read (name : String)
  | call (name : String)
  deriving Repr, DecidableEq

namespace Mention

/-- The variable that is read. -/
def read? : Mention → Option String
  | read name => some name
  | call _ => none

/-- The function that is called. -/
def call? : Mention → Option String
  | read _ => none
  | call name => some name

end Mention

namespace Expr

instance : Inhabited Expr := ⟨.literal default⟩

mutual

/-- The names an expression mentions, as often as it does, in front of a list. -/
def mentionsOnto : Expr → List Mention → List Mention
  | literal _, rest => rest
  | var name, rest => .read name :: rest
  | unary _ x, rest => x.mentionsOnto rest
  | binary _ l r, rest => l.mentionsOnto (r.mentionsOnto rest)
  | call f args keywords, rest =>
    .call f :: listMentionsOnto args (keywordMentionsOnto keywords rest)
  | cond c y n, rest => c.mentionsOnto (y.mentionsOnto (n.mentionsOnto rest))

def listMentionsOnto : List Expr → List Mention → List Mention
  | [], rest => rest
  | e :: more, rest => e.mentionsOnto (listMentionsOnto more rest)

def keywordMentionsOnto : List (String × Expr) → List Mention → List Mention
  | [], rest => rest
  | (_, e) :: more, rest => e.mentionsOnto (keywordMentionsOnto more rest)

end

mutual

theorem mentionsOnto_eq (e : Expr) (rest : List Mention) :
    e.mentionsOnto rest = e.mentionsOnto [] ++ rest := by
  cases e with
  | literal v => simp [mentionsOnto]
  | var name => simp [mentionsOnto]
  | unary op x => simpa only [mentionsOnto] using mentionsOnto_eq x rest
  | binary op l r =>
    simp only [mentionsOnto]
    rw [mentionsOnto_eq l, mentionsOnto_eq r, mentionsOnto_eq l (r.mentionsOnto [])]
    simp
  | call f args keywords =>
    simp only [mentionsOnto]
    rw [listMentionsOnto_eq args, keywordMentionsOnto_eq keywords,
      listMentionsOnto_eq args (keywordMentionsOnto keywords [])]
    simp
  | cond c y n =>
    simp only [mentionsOnto]
    rw [mentionsOnto_eq c, mentionsOnto_eq y, mentionsOnto_eq n,
      mentionsOnto_eq c (y.mentionsOnto (n.mentionsOnto [])), mentionsOnto_eq y (n.mentionsOnto [])]
    simp

theorem listMentionsOnto_eq (l : List Expr) (rest : List Mention) :
    listMentionsOnto l rest = listMentionsOnto l [] ++ rest := by
  cases l with
  | nil => simp [listMentionsOnto]
  | cons e more =>
    simp only [listMentionsOnto]
    rw [mentionsOnto_eq e, listMentionsOnto_eq more,
      mentionsOnto_eq e (listMentionsOnto more [])]
    simp

theorem keywordMentionsOnto_eq (l : List (String × Expr)) (rest : List Mention) :
    keywordMentionsOnto l rest = keywordMentionsOnto l [] ++ rest := by
  cases l with
  | nil => simp [keywordMentionsOnto]
  | cons e more =>
    simp only [keywordMentionsOnto]
    rw [mentionsOnto_eq e.2, keywordMentionsOnto_eq more,
      mentionsOnto_eq e.2 (keywordMentionsOnto more [])]
    simp

end

/-- The names an expression mentions, from left to right. -/
def mentions (e : Expr) : List Mention := e.mentionsOnto []

/-- The variables an expression reads. -/
def reads (e : Expr) : NameSet := NameSet.ofList (e.mentions.filterMap Mention.read?)

/-- The functions an expression calls. -/
def calls (e : Expr) : NameSet := NameSet.ofList (e.mentions.filterMap Mention.call?)

mutual

def text : Expr → String
  | literal v => v.text
  | var name => name
  | unary op x => op.symbol ++ "(" ++ x.text ++ ")"
  | binary op l r => "(" ++ l.text ++ " " ++ op.symbol ++ " " ++ r.text ++ ")"
  | call f args keywords =>
    f ++ "(" ++ Text.separated ", " (texts args ++ keywordTexts keywords) ++ ")"
  | cond c y n => "(if " ++ c.text ++ " then " ++ y.text ++ " else " ++ n.text ++ ")"

def texts : List Expr → List String
  | [] => []
  | e :: rest => e.text :: texts rest

def keywordTexts : List (String × Expr) → List String
  | [] => []
  | (name, e) :: rest => (name ++ "=" ++ e.text) :: keywordTexts rest

end

end Expr

end TimeMarch
