import TextAdventure.Expr.Inspect
import TextAdventure.Rule

/-! # Rules as diagnostics show them

A diagnostic tells what kind of rule it is and the source text that its errors are reported under.
-/
namespace TextAdventure

namespace Rule

inductive Kind where
  | normal
  /-- Output that no source text stands for. -/
  | builtin
  /-- A script that only reads a name or a property. -/
  | property
  deriving DecidableEq, Repr

def Kind.name : Kind → String
  | normal => "Normal"
  | builtin => "Builtin"
  | property => "Property"

def kind : Rule → Kind
  | line _ => .builtin
  | script s => if s.code.isRead then .property else .normal
  | _ => .normal

/-- The text that errors are reported under, of rules that are nothing but a script. -/
def source? : Rule → Option String
  | script s => some s.source
  | _ => none

def inspectSource : Option String → String
  | some source => Inspect.tuple "Some" [Text.quote source]
  | none => "None"

def inspect (rule : Rule) : String :=
  Inspect.braced "Thunk"
    [Inspect.part "kind" rule.kind.name, Inspect.part "expression" (inspectSource rule.source?), ".."]

end Rule

end TextAdventure
