import TextAdventure.Function
import TextAdventure.Value

/-! # Rules

A rule is behaviour written as a plain value. A string is a script, or a line of output after a dollar
sign; a list runs in order; a map is a conditional with at most one condition, one action and one
alternative; a function is called; any other value stands for itself. Rules that keep progress from
one run to the next keep it under the path of their component.
-/
namespace TextAdventure

inductive Rule where
  | constant (v : Value)
  | line (text : String)
  | script (s : Script)
  /-- Reads a name or a property, and calls the function found there if it is one. -/
  | property (s : Script)
  | call (f : Function)
  | sequence (rules : List Rule)
  /-- Runs rules in order until one gives a truthy value. -/
  | switch (rules : List Rule)
  /-- Runs one of the rules by chance. -/
  | choice (rules : List Rule)
  /-- Runs the rule after the one that it ran last, and starts over after the last. -/
  | cycle (key : String) (rules : List Rule)
  | once (key : String) (body : Rule)
  | branch (condition yes no : Rule)

namespace Rule

def skip : Rule :=
  .sequence []

def items : Rule → List Rule
  | sequence rules => rules
  | rule => [rule]

def partPath (path part : String) : String :=
  path ++ "/" ++ part

/-- The part that a component plays in a rule map. -/
inductive Slot where
  | condition
  | action
  | alternative
  deriving DecidableEq, Repr

namespace Slot

def ofKey? (key : String) : Option Slot :=
  if key ∈ ["when", "if", "unless"] then some condition
  else if key ∈ ["all", "do", "then", "switch", "repeat", "random", "once"] then some action
  else if key ∈ ["otherwise", "else"] then some alternative
  else none

def name : Slot → String
  | condition => "condition"
  | action => "action"
  | alternative => "otherwise"

end Slot

/-- The components of a rule map that are compiled so far, with their keys. -/
structure Components where
  condition : Option (String × Rule)
  action : Option (String × Rule)
  alternative : Option (String × Rule)

namespace Components

def empty : Components :=
  ⟨none, none, none⟩

def get (slot : Slot) (parts : Components) : Option (String × Rule) :=
  match slot with
  | .condition => parts.condition
  | .action => parts.action
  | .alternative => parts.alternative

def set (slot : Slot) (key : String) (rule : Rule) (parts : Components) : Components :=
  match slot with
  | .condition => { parts with condition := some (key, rule) }
  | .action => { parts with action := some (key, rule) }
  | .alternative => { parts with alternative := some (key, rule) }

/-- The slot of a key, if the key is known and its slot is free. -/
def freeSlot (key : String) (parts : Components) : Except Error Slot :=
  match Slot.ofKey? key with
  | none => .error (.ofFault (.unknownComponent key))
  | some slot =>
    match parts.get slot with
    | some (existing, _) => .error (.ofFault (.duplicateComponent slot.name existing))
    | none => .ok slot

/-- The rule that complete components make up. -/
def rule (parts : Components) : Except Error Rule :=
  let yes := (parts.action.map Prod.snd).getD (.constant (.bool true))
  let no := (parts.alternative.map Prod.snd).getD skip
  match parts.condition with
  | some (key, condition) =>
    .ok (if key = "unless" then .branch condition no yes else .branch condition yes no)
  | none =>
    if parts.action.isSome then .ok (.branch (.constant (.bool true)) yes no)
    else .error (.ofFault (.invalidRule "rule has no condition or action"))

end Components

def someItems (key : String) (rule : Rule) : Except Error (List Rule) :=
  if rule.items.isEmpty then .error (.ofFault (.invalidRule (key ++ " needs at least one rule")))
  else .ok rule.items

/-- What a component does with the rule given for it at `path`. -/
def ofComponent (key path : String) (rule : Rule) : Except Error Rule :=
  if key = "switch" then .ok (.switch rule.items)
  else if key = "repeat" then (someItems key rule).map (.cycle path)
  else if key = "random" then (someItems key rule).map .choice
  else if key = "once" then .ok (.once path rule)
  else .ok rule

def ofScript (s : Script) : Rule :=
  if s.code.isRead then .property s else .script s

def ofString (text : String) : Except Error Rule :=
  match text.toList with
  | '$' :: rest => .ok (.line (String.ofList rest))
  | _ => (Script.compile text).map ofScript

mutual

def ofValue (path : String) : Value → Except Error Rule
  | .string text => Error.reportAt path (ofString text)
  | .list values => return .sequence (← ofValues path 0 values)
  | .map _ entries => do
    let parts ← ofEntries path .empty entries
    Error.reportAt path parts.rule
  | .function f => .ok (.call f)
  | v => .ok (.constant v)

def ofValues (path : String) (i : Nat) : List Value → Except Error (List Rule)
  | [] => .ok []
  | v :: vs => do
    let rule ← ofValue (partPath path (Number.naturalText i)) v
    return rule :: (← ofValues path (i + 1) vs)

def ofEntries (path : String) (parts : Components) :
    List (String × Value) → Except Error Components
  | [] => .ok parts
  | (key, v) :: rest => do
    let slot ← Error.reportAt path (parts.freeSlot key)
    let rule ← ofValue (partPath path key) v
    let rule ← Error.reportAt path (ofComponent key (partPath path key) rule)
    ofEntries path (parts.set slot key rule) rest

end

end Rule

end TextAdventure
