import TextAdventure.Expr
import TextAdventure.Number.Notation
import TextAdventure.Text.Bracketed
import TextAdventure.Text.Quoted

/-! # Expressions as diagnostics show them

One line that names every node, its operator, its parts in order and its span.
-/
namespace TextAdventure

open Text (commaSeparated brackets)

namespace Inspect

def tuple (name : String) (parts : List String) : String :=
  name ++ "(" ++ commaSeparated parts ++ ")"

def braced (name : String) (parts : List String) : String :=
  name ++ " \x7b " ++ commaSeparated parts ++ " \x7d"

def part (name text : String) : String :=
  name ++ ": " ++ text

def record (name : String) (parts : List (String × String)) : String :=
  braced name (parts.map fun p => part p.1 p.2)

end Inspect

open Inspect

def UnaryOp.name : UnaryOp → String
  | not => "Not"
  | neg => "Neg"
  | plus => "Plus"

def BinaryOp.name : BinaryOp → String
  | add => "Add"
  | sub => "Sub"
  | mul => "Mul"
  | div => "Div"
  | rem => "Rem"
  | eq => "Eq"
  | ne => "Ne"
  | strictEq => "StrictEq"
  | strictNe => "StrictNe"
  | lt => "Lt"
  | le => "Le"
  | gt => "Gt"
  | ge => "Ge"

def LogicalOp.name : LogicalOp → String
  | and => "And"
  | or => "Or"

def AssignOp.name : AssignOp → String
  | set => "Set"
  | add => "Add"
  | sub => "Sub"

def Literal.inspect : Literal → String
  | nil => "nil"
  | bool b => if b then "true" else "false"
  | int n => Number.integerText n.toInt
  | float x => Number.floatText .inspected x
  | string s => Text.quote s

def Span.inspect (span : Span) : String :=
  record "Span"
    [("start", Number.naturalText span.start), ("end", Number.naturalText span.stop),
     ("line", Number.naturalText span.line), ("column", Number.naturalText span.column)]

namespace Expr

mutual

def inspect : Expr → String
  | literal value span => tuple "Literal" [value.inspect, span.inspect]
  | identifier name span => tuple "Identifier" [Text.quote name, span.inspect]
  | array items span => tuple "Array" [brackets (inspectAll items), span.inspect]
  | object entries span => tuple "Object" [brackets (inspectEntries entries), span.inspect]
  | unary op operand span =>
    record "Unary" [("op", op.name), ("operand", inspect operand), ("span", span.inspect)]
  | binary op left right span =>
    record "Binary"
      [("op", op.name), ("left", inspect left), ("right", inspect right), ("span", span.inspect)]
  | logical op left right span =>
    record "Logical"
      [("op", op.name), ("left", inspect left), ("right", inspect right), ("span", span.inspect)]
  | conditional test consequent alternate span =>
    record "Conditional"
      [("test", inspect test), ("consequent", inspect consequent),
       ("alternate", inspect alternate), ("span", span.inspect)]
  | assign op target value span =>
    record "Assign"
      [("op", op.name), ("target", inspect target), ("value", inspect value),
       ("span", span.inspect)]
  | member container name span =>
    record "Member"
      [("object", inspect container), ("property", tuple "Named" [Text.quote name]),
       ("span", span.inspect)]
  | element container key span =>
    record "Member"
      [("object", inspect container), ("property", tuple "Computed" [inspect key]),
       ("span", span.inspect)]
  | call callee args span =>
    record "Call"
      [("callee", inspect callee), ("args", brackets (inspectAll args)), ("span", span.inspect)]
  | sequence items span => tuple "Sequence" [brackets (inspectAll items), span.inspect]
  | arrow pattern body span =>
    record "Match"
      [("pattern", inspect pattern), ("body", inspect body), ("span", span.inspect)]

def inspectAll : List Expr → List String
  | [] => []
  | e :: es => inspect e :: inspectAll es

def inspectEntries : List (String × Expr) → List String
  | [] => []
  | (key, e) :: es => tuple "" [Text.quote key, inspect e] :: inspectEntries es

end

end Expr

end TextAdventure
