import TextAdventure.Command.Matcher
import TextAdventure.Expr.Inspect
import TextAdventure.Expr.Parser
import TextAdventure.Text.Blank

/-! # Patterns

A pattern is the part of an action before `=>`: a verb, which may take arguments, and at most one
clause `.preposition` or `.preposition(object)`. Names with a dollar sign capture what they stand for.
-/
namespace TextAdventure

namespace Pattern

inductive Term where
  | name (n : String)
  /-- A name with the dollar sign before it. -/
  | capture (n : String)

namespace Term

def ofName (n : String) : Term :=
  if n.startsWith "$" then .capture n else .name n

/-- A quoted name never captures. -/
def ofExpr : Expr → Except Error Term
  | .identifier n _ => .ok (.ofName n)
  | .literal (.string n) _ => .ok (.name n)
  | e => .error (.ofFault (.invalidMatch ("expected a name, found " ++ e.inspect)))

def object (role : Role) : Term → Matcher
  | name n => Matcher.object role n
  | capture n => Matcher.captureObject role n

def modifier (kind : String) : Term → Matcher
  | name n => Matcher.modifier kind n
  | capture n => Matcher.captureModifier kind n

end Term

structure Application where
  head : Term
  args : List Term

/-- A name that is not called has no arguments. -/
def Application.ofExpr : Expr → Except Error Application
  | .call callee args _ => return ⟨← Term.ofExpr callee, ← args.mapM Term.ofExpr⟩
  | e => return ⟨← Term.ofExpr e, []⟩

def isMember : Expr → Bool
  | .member .. | .element .. => true
  | _ => false

/-- The called member and the arguments of its call, or the expression itself and no arguments. -/
def calledMember : Expr → Expr × List Expr
  | .call callee args span => if isMember callee then (callee, args) else (.call callee args span, [])
  | e => (e, [])

end Pattern

structure Pattern where
  verb : Pattern.Application
  clause : Option Pattern.Application

namespace Pattern

def invalid (message : String) : Error :=
  .ofFault (.invalidMatch message)

def ofExpr (e : Expr) : Except Error Pattern := do
  let (head, args) := calledMember e
  let args ← args.mapM Term.ofExpr
  match head with
  | .member container preposition _ =>
    return ⟨← Application.ofExpr container, some ⟨.ofName preposition, args⟩⟩
  | .element .. => throw (invalid "attribute must be a plain name")
  | e => return ⟨← Application.ofExpr e, none⟩

def lookupVerb (verbs : VerbTable) : Term → Except Error Verb
  | .capture _ => .error (.ofFault .missingVerb)
  | .name n =>
    match Dictionary.get? n verbs with
    | some v => .ok v
    | none => .error (.ofFault (.unknownVerb n))

/-- The arguments for the direct object and for the modifiers. -/
def arguments (v : Verb) (args : List Term) : Option Term × List Term :=
  if v.isTransitive then (args.head?, args.tail) else (none, args)

/-- Pairs arguments with the kinds of modifiers that are left. -/
def modifierMatchers (v : Verb) : List String → List Term → Except Error (List Matcher)
  | _, [] => .ok []
  | [], _ :: _ =>
    .error (invalid (v.id ++ " takes " ++ Number.naturalText v.modifiers.length ++ " modifier(s)"))
  | kind :: kinds, t :: ts => return t.modifier kind :: (← modifierMatchers v kinds ts)

def prepositionClause (clause : Application) : Except Error Matcher.PrepositionClause :=
  match clause.head, clause.args with
  | .capture _, _ => .error (invalid "attribute cannot be a capture")
  | .name n, [] => .ok ⟨some n, none⟩
  | .name n, [t] => .ok ⟨some n, some (t.object .indirect)⟩
  | .name _, _ => .error (invalid "attribute takes one indirect object")

def clauses (verbs : VerbTable) (p : Pattern) : Except Error Matcher.Clauses := do
  let v ← lookupVerb verbs p.verb.head
  let (object, modifiers) := arguments v p.verb.args
  let modifiers ← modifierMatchers v v.modifiers modifiers
  let preposition ← p.clause.mapM prepositionClause
  return ⟨some v, object.map (Term.object .direct), preposition, modifiers⟩

def matcher (verbs : VerbTable) (e : Expr) : Except Error Matcher := do
  let p ← ofExpr e
  let clauses ← p.clauses verbs
  clauses.matcher

def compile (verbs : VerbTable) (source : String) : Except Error Matcher := do
  let e ← Expr.parse source
  (matcher verbs e).mapError (·.inExpression (Text.trim source))

end Pattern

end TextAdventure
