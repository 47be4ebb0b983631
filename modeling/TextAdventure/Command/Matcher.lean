import TextAdventure.Command
import TextAdventure.Error
import TextAdventure.Value

/-! # Matchers

A matcher decides whether a command is one that an action is for, given the owner of the action. Of
the matchers that accept a command, the more specific ones give the higher scores.
-/
namespace TextAdventure

structure Hit where
  score : Nat
  captures : Bindings

namespace Hit

def ofScore (score : Nat) : Hit :=
  ⟨score, []⟩

/-- Scores add up, and of equal names the later capture stays. -/
def merge (a b : Hit) : Hit :=
  ⟨a.score + b.score, Dictionary.insertAll b.captures a.captures⟩

end Hit

/-- A test of a command for an action of an owner. -/
abbrev Matcher := Command → String → Option Hit

namespace Matcher

def nameScore : Nat := 10

def captureScore : Nat := 5

def named (found : Bool) : Option Hit :=
  if found then some (.ofScore nameScore) else none

/-- A hit that captures a value under a name, which a dollar sign may mark. -/
def captured (name : String) (v : Value) : Hit :=
  let name :=
    match name.toList with
    | '$' :: rest => String.ofList rest
    | _ => name
  ⟨captureScore, [(name, v)]⟩

/-- Whether a name means an object; `this` means the owner. -/
def means (name owner id : String) : Bool :=
  if name = "this" then id = owner else id = name

def verb (id : String) : Matcher := fun c _ =>
  named (c.verb?.any fun v => v.id = id)

def object (role : Role) (name : String) : Matcher := fun c owner =>
  named ((c.object? role).any (means name owner))

def captureObject (role : Role) (name : String) : Matcher := fun c _ =>
  (c.object? role).map fun id => captured name (.entity id)

def preposition (word : String) : Matcher := fun c _ =>
  named (c.preposition? = some word)

def modifier (kind value : String) : Matcher := fun c _ =>
  named (c.modifiers.contains (kind, value))

def captureModifier (kind name : String) : Matcher := fun c _ =>
  (c.modifiers.find? fun m => m.1 = kind).map fun m => captured name (.string m.2)

def absent (pos : PartOfSpeech) : Matcher := fun c _ =>
  if (c.find? pos).isSome then none else some (.ofScore 0)

def all (matchers : List Matcher) : Matcher := fun c owner =>
  matchers.foldlM (fun hit matcher => (matcher c owner).map hit.merge) (.ofScore 0)

/-- What is asked of the preposition and the indirect object. -/
structure PrepositionClause where
  preposition : Option String
  indirect : Option Matcher

def PrepositionClause.matcher (clause : PrepositionClause) : Except Error Matcher :=
  match clause.preposition with
  | some a => .ok (all (Matcher.preposition a :: clause.indirect.toList))
  | none => .error (.ofFault (.invalidMatch "attribute clause has no attribute"))

/-- What is asked of each part of a command. A part that nothing is asked of has to be absent. -/
structure Clauses where
  verb : Option Verb
  object : Option Matcher
  preposition : Option PrepositionClause
  modifiers : List Matcher

namespace Clauses

/-- What is asked of the preposition; without a clause, a verb may allow any. -/
def prepositionMatchers (v : Verb) (clauses : Clauses) : Except Error (List Matcher) :=
  match clauses.preposition with
  | some clause => clause.matcher.map ([·])
  | none => .ok (if v.isIndirectOptional then [] else [absent .preposition])

def modifierMatchers (clauses : Clauses) : List Matcher :=
  if clauses.modifiers.isEmpty then [absent .modifier] else clauses.modifiers

def matcher (clauses : Clauses) : Except Error Matcher :=
  match clauses.verb with
  | some v => do
    let prepositions ← clauses.prepositionMatchers v
    return all ([Matcher.verb v.id, clauses.object.getD (absent .directObject)] ++ prepositions ++
      clauses.modifierMatchers)
  | none => .error (.ofFault .missingVerb)

end Clauses

end Matcher

end TextAdventure
