import TextAdventure.Command.Pattern
import TextAdventure.Rule.Eval

/-! # Actions

An action says what happens when a command matches a pattern in one phase of its handling. Its body
runs with names for all entities, for what the pattern captured and for the owner of the action, and on
top of them the properties of the owner.
-/
namespace TextAdventure

inductive Phase where
  /-- Comes first and may stop the command. -/
  | before
  /-- Carries the command out. -/
  | main
  /-- Comes after a main action that handled the command. -/
  | after
  deriving DecidableEq, Repr

def Phase.name : Phase → String
  | before => "before"
  | main => "main"
  | after => "after"

structure Action where
  phase : Phase
  path : String
  matcher : Matcher
  body : Rule

namespace Action

/-- The matcher of a pattern that stands in a longer source text. -/
def patternMatcher (verbs : VerbTable) (source : String) (pattern : Expr) : Except Error Matcher :=
  (Pattern.matcher verbs pattern).mapError
    (·.inExpression (Text.trim (pattern.span.text source)))

def ofArrow (verbs : VerbTable) (phase : Phase) (path source : String) :
    Expr → Except Error Action
  | .arrow pattern body _ => do
    let matcher ← patternMatcher verbs source pattern
    let script ← Script.ofFragment source body
    return ⟨phase, path, matcher, .script script⟩
  | _ =>
    .error (Pattern.invalid ("expected `match => body`, found `" ++ Text.trim source ++ "`"))

def ofSource (verbs : VerbTable) (phase : Phase) (path source : String) : Except Error Action :=
  Error.reportAt path do
    let e ← Expr.parse source
    ofArrow verbs phase path source e

def ofRule (verbs : VerbTable) (phase : Phase) (path pattern : String) (rule : Value) :
    Except Error Action := do
  let matcher ← Error.reportAt path (Pattern.compile verbs pattern)
  return ⟨phase, path, matcher, ← Rule.ofValue path rule⟩

def entityNames (s : Store) : Bindings :=
  Dictionary.ofList (s.entityIds.map fun id => (id, .entity id))

/-- Runs a computation in the scopes of an action. An owner that is no entity has no scope. -/
def inScopes {α : Type} (owner : String) (captures : Bindings) (m : Eval α) : Eval α := do
  let s ← get
  Eval.inScope (.block (entityNames s)) <|
    Eval.inScope (.block captures) <|
      Eval.inScope (.block [("this", .entity owner)]) <|
        if s.hasEntity owner then Eval.inScope (.entity owner) m else m

/-- Runs the body if the command matches. A command that does not match leaves everything alone. -/
def perform (owner : String) (c : Command) (a : Action) : Eval Resolved :=
  match a.matcher c owner with
  | none => return .unresolved
  | some hit =>
    Eval.mapError (·.inAction a.phase.name a.path) <|
      inScopes owner hit.captures a.body.resolve

def highest {α : Type} : List (Nat × α) → Option (Nat × α)
  | [] => none
  | x :: xs =>
    match highest xs with
    | none => some x
    | some y => if x.1 < y.1 then some y else some x

def scored (owner : String) (c : Command) (a : Action) : Option (Nat × Action) :=
  (a.matcher c owner).map fun hit => (hit.score, a)

/-- The best of the actions that match, with its score; of equally good ones the first. -/
def best (owner : String) (c : Command) (actions : List Action) : Option (Nat × Action) :=
  highest (actions.filterMap (scored owner c))

end Action

end TextAdventure
