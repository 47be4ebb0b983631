import TextAdventure.Random
import TextAdventure.Value

/-! # The store

The state a session is played in: global bindings, the scopes opened on top of them, the properties of
all entities, the lines written so far, the random generator and the count of active calls. A scope
holds bindings of its own or stands for the properties of an entity. Scopes are listed innermost
first, and a name means its first definition on the way out to the globals.
-/
namespace TextAdventure

inductive Scope where
  | block (bindings : Bindings)
  /-- Reads and writes go to the properties of an entity. -/
  | entity (id : String)

structure Store where
  globals : Bindings
  /-- Open scopes, innermost first. -/
  scopes : List Scope
  entities : Dictionary Bindings
  /-- Lines of the innermost output buffer, oldest first. -/
  lines : List String
  /-- Lines of the buffers around it, innermost first. -/
  outerLines : List (List String)
  random : Random.Generator
  activeCalls : Nat
  /-- How many calls may be active at once. -/
  maxCalls : Nat
  /-- The identity the next new function gets, or the mark of the next new map. -/
  nextIdentity : Nat

namespace Store

def defaultMaxCalls : Nat := 64

def new (seed : UInt64) (maxCalls : Nat) : Store where
  globals := []
  scopes := []
  entities := []
  lines := []
  outerLines := []
  random := .ofSeed seed
  activeCalls := 0
  maxCalls := maxCalls
  nextIdentity := 0

def insertEntity (id : String) (properties : Bindings) (s : Store) : Store :=
  { s with entities := Dictionary.insert id properties s.entities }

def properties? (id : String) (s : Store) : Option Bindings :=
  Dictionary.get? id s.entities

def property? (id key : String) (s : Store) : Option Value :=
  (s.properties? id).bind (Dictionary.get? key)

def hasEntity (id : String) (s : Store) : Bool :=
  Dictionary.contains id s.entities

def entityIds (s : Store) : List String :=
  Dictionary.keys s.entities

/-- Writes a property; an unknown entity comes into being with it. -/
def setProperty (id key : String) (value : Value) (s : Store) : Store :=
  s.insertEntity id (Dictionary.insert key value ((s.properties? id).getD []))

@[simp] theorem scopes_setProperty (id key : String) (v : Value) (s : Store) :
    (s.setProperty id key v).scopes = s.scopes :=
  rfl

@[simp] theorem nextIdentity_setProperty (id key : String) (v : Value) (s : Store) :
    (s.setProperty id key v).nextIdentity = s.nextIdentity :=
  rfl

@[simp] theorem properties?_setProperty_self (id key : String) (v : Value) (s : Store) :
    (s.setProperty id key v).properties? id =
      some (Dictionary.insert key v ((s.properties? id).getD [])) :=
  Dictionary.get?_insert_self id _ s.entities

@[simp] theorem properties?_setProperty_of_ne {id other : String} (h : other ≠ id) (key : String)
    (v : Value) (s : Store) : (s.setProperty id key v).properties? other = s.properties? other :=
  Dictionary.get?_insert_of_ne h _ s.entities

@[simp] theorem property?_setProperty_self (id key : String) (v : Value) (s : Store) :
    (s.setProperty id key v).property? id key = some v := by
  simp [property?]

theorem property?_setProperty_of_ne {id key id' key' : String} (h : (id', key') ≠ (id, key))
    (v : Value) (s : Store) :
    (s.setProperty id key v).property? id' key' = s.property? id' key' := by
  unfold property?
  by_cases hid : id' = id
  · subst hid
    have hkey : key' ≠ key := fun heq => h (by rw [heq])
    rw [properties?_setProperty_self, Option.bind_some, Dictionary.get?_insert_of_ne hkey]
    cases s.properties? id' with
    | none => rfl
    | some properties => rfl
  · rw [properties?_setProperty_of_ne hid]

theorem setProperty_setProperty (id key : String) (v w : Value) (s : Store) :
    (s.setProperty id key v).setProperty id key w = s.setProperty id key w := by
  simp only [setProperty, insertEntity, properties?, Dictionary.get?_insert_self, Option.getD_some,
    Dictionary.insert_insert]

theorem setProperty_comm {id key id' key' : String} (h : (id', key') ≠ (id, key)) (v w : Value)
    (s : Store) : (s.setProperty id key v).setProperty id' key' w =
      (s.setProperty id' key' w).setProperty id key v := by
  by_cases hid : id' = id
  · subst hid
    have hkey : key' ≠ key := fun heq => h (by rw [heq])
    simp only [setProperty, insertEntity, properties?, Dictionary.get?_insert_self,
      Option.getD_some, Dictionary.insert_insert, Dictionary.insert_comm hkey]
  · simp only [setProperty, insertEntity, properties?, Dictionary.get?_insert_of_ne hid,
      Dictionary.get?_insert_of_ne (Ne.symm hid), Dictionary.insert_comm hid]

def entitiesWhere (test : String → Bindings → Bool) (s : Store) : List String :=
  Dictionary.keys (s.entities.filter fun entry => test entry.1 entry.2)

def read (name : String) (s : Store) : Scope → Option Value
  | .block bindings => Dictionary.get? name bindings
  | .entity id => s.property? id name

def lookupName (name : String) (s : Store) : Option Value :=
  (s.scopes.findSome? (s.read name)).or (Dictionary.get? name s.globals)

def isDefined (name : String) (s : Store) : Bool :=
  (s.lookupName name).isSome

/-- How many scopes are passed on the way out to the first definition of a name; all of them if no
scope defines it. -/
def owner (name : String) (s : Store) : Nat :=
  s.scopes.findIdx fun scope => (s.read name scope).isSome

/-- Binds a name in the scope found after passing `depth` scopes, or in the globals past the last. -/
def bindAt (depth : Nat) (name : String) (value : Value) (s : Store) : Store :=
  match s.scopes[depth]? with
  | some (.block bindings) =>
    { s with scopes := s.scopes.set depth (.block (Dictionary.insert name value bindings)) }
  | some (.entity id) => s.setProperty id name value
  | none => { s with globals := Dictionary.insert name value s.globals }

/-- Binds a name in the innermost scope and so shadows outer definitions. -/
def define (name : String) (value : Value) (s : Store) : Store :=
  s.bindAt 0 name value

def openScope (scope : Scope) (s : Store) : Store :=
  { s with scopes := scope :: s.scopes }

def closeScope (s : Store) : Store :=
  { s with scopes := s.scopes.tail }

def frameCount (s : Store) : Nat :=
  s.scopes.length + 1

def defineEntities (ids : List String) (s : Store) : Store :=
  ids.foldl (fun s id => s.define id (.entity id)) s

def writeLines (lines : List String) (s : Store) : Store :=
  { s with lines := s.lines ++ lines }

def pushBuffer (s : Store) : Store :=
  { s with lines := [], outerLines := s.lines :: s.outerLines }

def takeLines (s : Store) : List String × Store :=
  (s.lines, { s with lines := [] })

/-- Removes the innermost output buffer; the last one is only emptied. -/
def popBuffer (s : Store) : List String × Store :=
  match s.outerLines with
  | [] => s.takeLines
  | outer :: rest => (s.lines, { s with lines := outer, outerLines := rest })

def freshIdentity (s : Store) : Nat × Store :=
  (s.nextIdentity, { s with nextIdentity := s.nextIdentity + 1 })

/-- Marks the maps in a value that nothing holds yet. -/
def hold (v : Value) (s : Store) : Value × Store :=
  let (v, nextIdentity) := v.hold s.nextIdentity
  (v, { s with nextIdentity })

def holdAll (vs : List Value) (s : Store) : List Value × Store :=
  let (vs, nextIdentity) := Value.holdAll vs s.nextIdentity
  (vs, { s with nextIdentity })

def randomIndex (n : Nat) (s : Store) : Nat × Store :=
  let (i, random) := s.random.index n
  (i, { s with random })

def randomUnit (s : Store) : Float × Store :=
  let (x, random) := s.random.unit
  (x, { s with random })

def installBuiltins (s : Store) : Store :=
  Builtin.all.foldl
    (fun s b =>
      let (identity, s) := s.freshIdentity
      s.define b.name (.function ⟨identity, .builtin b⟩))
    s

def defineFunction (name : String) (params : List String) (source : String) (s : Store) :
    Except Error Store := do
  let f ← ScriptFunction.compile name params source
  let (identity, s) := s.freshIdentity
  return s.define name (.function ⟨identity, .script f⟩)

end Store

end TextAdventure
