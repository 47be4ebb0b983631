import TextAdventure.Dictionary

/-! # Verbs

A verb is the first word of a command. Its traits and declarations say which words may follow it.
-/
namespace TextAdventure

inductive Role where
  | direct
  /-- The object that follows a preposition. -/
  | indirect
  deriving DecidableEq, Repr

inductive VerbTrait where
  | transitive
  | intransitive
  | instant
  | modifiable
  /-- Actions for the command without a preposition also accept the command with one. -/
  | indirectOptional
  deriving DecidableEq, Repr

def VerbTrait.all : List VerbTrait :=
  [.transitive, .intransitive, .instant, .modifiable, .indirectOptional]

structure Verb where
  /-- The word the player types. -/
  id : String
  /-- Each trait at most once, in the order of `VerbTrait.all`. -/
  traits : List VerbTrait
  /-- The prepositions that may introduce an indirect object. -/
  prepositions : List String
  /-- The kinds of modifiers, in the order in which patterns name them. -/
  modifiers : List String
  /-- The groups that objects are taken from. -/
  contexts : List (Role × String)
  deriving DecidableEq, Repr

namespace Verb

def new (id : String) : Verb :=
  ⟨id, [], [], [], []⟩

def withTrait (trait : VerbTrait) (v : Verb) : Verb :=
  { v with traits := VerbTrait.all.filter fun t => t = trait ∨ t ∈ v.traits }

def withPreposition (word : String) (v : Verb) : Verb :=
  { v with prepositions := v.prepositions ++ [word] }

/-- Adds a kind of modifier; the verb is modifiable from then on. -/
def withModifier (kind : String) (v : Verb) : Verb :=
  { v with modifiers := v.modifiers ++ [kind] }.withTrait .modifiable

def withContext (role : Role) (group : String) (v : Verb) : Verb :=
  { v with contexts := v.contexts ++ [(role, group)] }

def has (trait : VerbTrait) (v : Verb) : Bool :=
  v.traits.contains trait

def isTransitive (v : Verb) : Bool :=
  v.has .transitive

/-- A verb that is not transitive stands alone without saying so. -/
def isIntransitive (v : Verb) : Bool :=
  v.has .intransitive || !v.isTransitive

def isInstant (v : Verb) : Bool :=
  v.has .instant

def isIndirectOptional (v : Verb) : Bool :=
  v.has .indirectOptional

def contextsFor (role : Role) (v : Verb) : List String :=
  (v.contexts.filter fun context => context.1 = role).map Prod.snd

end Verb

abbrev VerbTable := Dictionary Verb

def VerbTable.ofVerbs (verbs : List Verb) : VerbTable :=
  Dictionary.ofList (verbs.map fun v => (v.id, v))

/-- Every verb is in the table once, under its id. -/
structure VerbTable.ById (verbs : VerbTable) : Prop where
  sorted : Dictionary.Sorted verbs
  id_eq : ∀ entry ∈ verbs, entry.2.id = entry.1

namespace VerbTable

theorem byId_ofVerbs (verbs : List Verb) : (ofVerbs verbs).ById := by
  refine ⟨Dictionary.sorted_ofList _, ?_⟩
  intro entry h
  obtain ⟨v, _, rfl⟩ := List.mem_map.mp (Dictionary.mem_ofList h)
  rfl

theorem ById.id_eq_of_get? {verbs : VerbTable} (h : verbs.ById) {id : String} {v : Verb}
    (hv : Dictionary.get? id verbs = some v) : v.id = id :=
  h.id_eq (id, v) (Dictionary.mem_of_get? hv)

end VerbTable

end TextAdventure
