import TextAdventure.Error
import TextAdventure.Expr.Parser
import TextAdventure.Text.Blank

/-! # Compiled expressions

Code is an expression without spans in which the target of every assignment is split into the place
where writing starts and the keys that lead on from it. An action has no code of its own: its pattern
and its body are compiled separately.
-/
namespace TextAdventure

inductive Code where
  | constant (value : Literal)
  | name (n : String)
  | list (items : List Code)
  | record (entries : List (String × Code))
  | unary (op : UnaryOp) (operand : Code)
  | binary (op : BinaryOp) (left right : Code)
  | logical (op : LogicalOp) (left right : Code)
  | conditional (test consequent alternate : Code)
  /-- Reads below a container; a key named in the source is a constant string. -/
  | member (container key : Code)
  /-- Writes below a name, through the scopes that are visible. -/
  | assignName (op : AssignOp) (root : String) (keys : List Code) (value : Code)
  /-- Writes below a value, which has to be an entity. -/
  | assignInto (op : AssignOp) (target : Code) (keys : List Code) (value : Code)
  /-- Calls a function by its name. -/
  | callName (function : String) (args : List Code)
  | callValue (function : Code) (args : List Code)
  | sequence (items : List Code)

namespace Code

/-- Where an assignment starts to write, and the keys that lead on from there. -/
inductive Place where
  | name (root : String) (keys : List Code)
  | value (target : Code) (keys : List Code)

def Place.extend (key : Code) : Place → Place
  | name root keys => .name root (keys ++ [key])
  | value target keys => .value target (keys ++ [key])

def Place.assign (op : AssignOp) (value : Code) : Place → Code
  | .name root keys => .assignName op root keys value
  | .value target keys => .assignInto op target keys value

/-- Splits code that reads into the place it reads from. -/
def place : Code → Place
  | .name n => .name n []
  | .member container key => container.place.extend key
  | code => .value code []

mutual

/-- Fails only where `=>` occurs. -/
def ofExpr : Expr → Except Error Code
  | .literal value _ => .ok (.constant value)
  | .identifier n _ => .ok (.name n)
  | .array items _ => return .list (← ofExprs items)
  | .object entries _ => return .record (← ofEntries entries)
  | .unary op operand _ => return .unary op (← ofExpr operand)
  | .binary op left right _ => return .binary op (← ofExpr left) (← ofExpr right)
  | .logical op left right _ => return .logical op (← ofExpr left) (← ofExpr right)
  | .conditional test consequent alternate _ =>
    return .conditional (← ofExpr test) (← ofExpr consequent) (← ofExpr alternate)
  | .assign op target value _ => return (← ofExpr target).place.assign op (← ofExpr value)
  | .member container key _ => return .member (← ofExpr container) (.constant (.string key))
  | .element container key _ => return .member (← ofExpr container) (← ofExpr key)
  | .call callee args _ =>
    match callee.identifier? with
    | some f => return .callName f (← ofExprs args)
    | none => return .callValue (← ofExpr callee) (← ofExprs args)
  | .sequence items _ => return .sequence (← ofExprs items)
  | .arrow .. => .error (.ofFault .misplacedMatch)

def ofExprs : List Expr → Except Error (List Code)
  | [] => .ok []
  | e :: es => return (← ofExpr e) :: (← ofExprs es)

def ofEntries : List (String × Expr) → Except Error (List (String × Code))
  | [] => .ok []
  | (key, e) :: es => return (key, ← ofExpr e) :: (← ofEntries es)

end

/-- Whether the code only reads a name or a property. -/
def isRead : Code → Bool
  | .name _ | .member .. => true
  | _ => false

end Code

/-- Code with the text its errors are reported under. -/
structure Script where
  source : String
  code : Code

namespace Script

/-- Compiles a whole source text and reports errors under the text without blanks at its ends. -/
def compile (source : String) : Except Error Script :=
  return ⟨Text.trim source, ← Code.ofExpr (← Expr.parse source)⟩

/-- Compiles an expression read from a source text and reports errors under the text it spans. -/
def ofFragment (source : String) (e : Expr) : Except Error Script :=
  return ⟨Text.trim (e.span.text source), ← Code.ofExpr e⟩

end Script

end TextAdventure
