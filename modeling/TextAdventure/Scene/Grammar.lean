import TextAdventure.Scene

/-! # The grammar of commands

A command is an intransitive verb, with a modifier or none, or a transitive verb with a direct object,
to which a modifier or a preposition with an indirect object may be added. The grammar is a tree; each
of its nodes adds one word to the command of its parent.
-/
namespace TextAdventure

namespace Grammar

inductive Slot where
  | intransitiveVerb
  | transitiveVerb
  | directObject
  | modifier
  | preposition
  | indirectObject
  deriving DecidableEq, Repr

/-- A node; a command that ends at a complete node is complete. -/
inductive Node where
  | node (slot : Slot) (complete : Bool) (children : List Node)

def modifierNode : Node :=
  .node .modifier true []

def intransitive : Node :=
  .node .intransitiveVerb true [modifierNode]

def transitive : Node :=
  .node .transitiveVerb false
    [.node .directObject true
      [modifierNode, .node .preposition false [.node .indirectObject true []]]]

def roots : List Node :=
  [intransitive, transitive]

end Grammar

namespace Scene

def objects (role : Role) (v : Verb) (preposition : Option String) (candidate : Entity → Bool)
    (scene : Scene) : Eval (List Entity) :=
  ((scene.candidates role v).filter candidate).filterM (·.offers v.id preposition)

def directObjects (c : Command) (scene : Scene) : Eval (List Command) :=
  match c.verb? with
  | some v => do
    let found ← scene.objects .direct v none fun _ => true
    return found.map fun e => c.withObject e.id
  | none => return []

/-- The direct object is never the indirect object too. -/
def indirectObjects (c : Command) (scene : Scene) : Eval (List Command) :=
  match c.verb?, c.preposition? with
  | some v, some preposition => do
    let found ← scene.objects .indirect v (some preposition) fun e => c.object? .direct ≠ some e.id
    return found.map fun e => c.withObject e.id
  | _, _ => return []

def modified (c : Command) (scene : Scene) : List Command :=
  match c.verb? with
  | some v =>
    v.modifiers.flatMap fun kind => (scene.modifierValues kind).map fun value =>
      c.withModifier kind value
  | none => []

def prepositioned (c : Command) : List Command :=
  match c.verb? with
  | some v => v.prepositions.map fun preposition => c.withPreposition preposition
  | none => []

/-- The commands that a word in the slot makes of a command. -/
def extend (scene : Scene) (slot : Grammar.Slot) (c : Command) : Eval (List Command) :=
  match slot with
  | .intransitiveVerb => return (scene.verbsWhere Verb.isIntransitive).map fun v => c.withVerb v
  | .transitiveVerb => return (scene.verbsWhere Verb.isTransitive).map fun v => c.withVerb v
  | .directObject => scene.directObjects c
  | .modifier => return scene.modified c
  | .preposition => return prepositioned c
  | .indirectObject => scene.indirectObjects c

end Scene

end TextAdventure
