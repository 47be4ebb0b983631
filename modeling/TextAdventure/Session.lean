import TextAdventure.Dispatch
import TextAdventure.Scene.Search

/-! # Sessions

A session is one game: its store, its verbs and entities, where the entities are and what the actions
do. A line of input is split into words, resolved to a command and dispatched.
-/
namespace TextAdventure

structure Config where
  /-- The seed of all chance; equal seeds and inputs replay the same game. -/
  seed : UInt64
  maxCalls : Nat
  traceSearch : Bool
  deriving DecidableEq, Repr

namespace Config

def default : Config :=
  ⟨0, Store.defaultMaxCalls, false⟩

def development : Config :=
  { default with traceSearch := true }

def testing : Config :=
  ⟨42, 16, false⟩

end Config

structure Session where
  config : Config
  store : Store
  verbs : VerbTable
  entities : Dictionary Entity
  /-- Groups and the ids of the entities in them, oldest first. -/
  placements : List (String × String)
  registry : Registry

namespace Session

/-- The group that holds the location of the player, and the name it is bound to. -/
def locationGroup : String :=
  "location"

def new (config : Config) : Session where
  config := config
  store := (Store.new config.seed config.maxCalls).installBuiltins
  verbs := []
  entities := []
  placements := []
  registry := .empty

def evaluate {α : Type} (m : Eval α) (s : Session) : Except Error α × Session :=
  let (result, store) := m.runOn s.store
  (result, { s with store })

def addVerb (v : Verb) (s : Session) : Session :=
  { s with verbs := Dictionary.insert v.id v s.verbs }

def addEntity (e : Entity) (properties : Bindings) (s : Session) : Session :=
  { s with
    store := s.store.insertEntity e.id properties
    entities := Dictionary.insert e.id e s.entities }

def place (group id : String) (s : Session) : Session :=
  if s.placements.contains (group, id) then s
  else { s with placements := s.placements ++ [(group, id)] }

def remove (group id : String) (s : Session) : Session :=
  { s with placements := s.placements.filter fun placement => placement ≠ (group, id) }

def setLocation (id : String) (s : Session) : Session :=
  let others := s.placements.filter fun placement => placement.1 ≠ locationGroup
  { s with
    store := s.store.define locationGroup (.entity id)
    placements := others ++ [(locationGroup, id)] }

def addAction (owner : String) (phase : Phase) (path source : String) (s : Session) :
    Except Error Session := do
  let a ← Action.ofSource s.verbs phase path source
  return { s with registry := s.registry.add owner a }

def addRuleAction (owner : String) (phase : Phase) (path pattern : String) (rule : Value)
    (s : Session) : Except Error Session := do
  let a ← Action.ofRule s.verbs phase path pattern rule
  return { s with registry := s.registry.add owner a }

def addEveryTurn (path : String) (rule : Value) (s : Session) : Except Error Session := do
  let rule ← Rule.ofValue path rule
  return { s with registry := s.registry.addEveryTurn path rule }

def defineFunction (name : String) (params : List String) (source : String) (s : Session) :
    Except Error Session := do
  return { s with store := ← s.store.defineFunction name params source }

def scene (s : Session) : Scene :=
  s.placements.foldl
    (fun scene placement =>
      match Dictionary.get? placement.2 s.entities with
      | some e => scene.add placement.1 e
      | none => scene)
    (.new s.verbs)

def surroundings (s : Session) : Surroundings :=
  let (here, others) := s.placements.partition fun placement => placement.1 = locationGroup
  ⟨here.getLast?.map Prod.snd, firstOfEach id (others.map Prod.snd)⟩

/-- The words of every command that the player may type. -/
def commands (s : Session) : Except Error (List (List String)) × Session :=
  s.evaluate (List.map Command.words <$> s.scene.commands)

def nextWords (input : String) (s : Session) : Except Error (List String) × Session :=
  s.evaluate (s.scene.nextWords (Text.words input))

/-- Resolves a line of input to a command and dispatches it; no outcome means no command. -/
def respond (input : String) (s : Session) : Eval (Option Outcome) := do
  match ← s.scene.exact (Text.words input) with
  | some c => return some (← s.registry.dispatch c s.surroundings)
  | none => return none

def submit (input : String) (s : Session) : Except Error (Option Outcome) × Session :=
  s.evaluate (s.respond input)

end Session

end TextAdventure
