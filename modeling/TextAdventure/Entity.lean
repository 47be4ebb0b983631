import TextAdventure.Code.Eval
import TextAdventure.MultiDict

/-! # Entities in the grammar

For the grammar, an entity is a word that offers itself as the object of verbs and contributes values
for modifiers. Its properties are in the store.
-/
namespace TextAdventure

/-- A verb that an entity may be an object of: the direct one, or the one after a preposition. -/
structure Offer where
  verb : String
  preposition : Option String
  /-- The offer stands only while the condition is truthy. -/
  condition : Option Script

namespace Offer

/-- Reads `verb` or `verb.preposition`; only the first point separates. -/
def ofDeclaration (declaration : String) : Offer :=
  let (verb, rest) := declaration.toList.span (· ≠ '.')
  match rest with
  | [] => ⟨declaration, none, none⟩
  | _ :: preposition => ⟨String.ofList verb, some (String.ofList preposition), none⟩

def withCondition (condition : Script) (o : Offer) : Offer :=
  { o with condition := some condition }

def isFor (verb : String) (preposition : Option String) (o : Offer) : Bool :=
  o.verb = verb && o.preposition = preposition

/-- Whether the offer stands now. Names in its condition are properties of the entity first, and
`this` is the entity. -/
def stands (id : String) (o : Offer) : Eval Bool :=
  match o.condition with
  | none => return true
  | some condition =>
    Eval.inScope (.block [("this", .entity id)]) <|
      Eval.inScope (.entity id) (Resolved.isTruthy <$> condition.resolve)

end Offer

structure Entity where
  /-- The word for the entity, and the id of its properties. -/
  id : String
  verbs : List Offer
  /-- Values for modifiers, by kind. -/
  modifiers : MultiDict String

namespace Entity

def new (id : String) : Entity :=
  ⟨id, [], .empty⟩

def withVerb (o : Offer) (e : Entity) : Entity :=
  { e with verbs := e.verbs ++ [o] }

def withModifier (kind value : String) (e : Entity) : Entity :=
  { e with modifiers := e.modifiers.insert kind value }

/-- Whether some offer for the verb and the preposition stands. Later conditions are left alone once one
does. -/
def offers (verb : String) (preposition : Option String) (e : Entity) : Eval Bool :=
  (e.verbs.filter (·.isFor verb preposition)).anyM (·.stands e.id)

end Entity

end TextAdventure
