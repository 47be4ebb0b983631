import TextAdventure.Action
import TextAdventure.MultiDict
import TextAdventure.Scene

/-! # Dispatch

A command runs through the phases of its handling. Every owner around the player may stop it before it
is carried out; the best main action of all owners carries it out; then every owner may follow up, and
what the owners write in following up replaces what the main action wrote if one of them handles the
command. A handled command ends the turn unless its verb is instant.
-/
namespace TextAdventure

/-- The actions of all owners, and the rules that run at the end of every turn with their paths. -/
structure Registry where
  actions : MultiDict Action
  everyTurn : List (String × Rule)

/-- What is around the player, besides the objects of the command. -/
structure Surroundings where
  location : Option String
  /-- Other entities, in the order in which they came. -/
  context : List String

structure Outcome where
  phase : Option Phase
  /-- Whether the verb of the command takes no turn. -/
  instant : Bool
  output : List String

def Outcome.handled (o : Outcome) : Bool :=
  o.phase.isSome

/-- The owners whose actions a command may set off, in the order of their turns, once each. -/
def Surroundings.owners (c : Command) (around : Surroundings) : List String :=
  firstOfEach id <|
    (c.object? .indirect).toList ++ (c.object? .direct).toList ++ around.location.toList ++
      around.context.reverse ++ (c.verb?.map Verb.id).toList

namespace Registry

def empty : Registry :=
  ⟨.empty, []⟩

def add (owner : String) (a : Action) (r : Registry) : Registry :=
  { r with actions := r.actions.insert owner a }

def addEveryTurn (path : String) (rule : Rule) (r : Registry) : Registry :=
  { r with everyTurn := r.everyTurn ++ [(path, rule)] }

def actionsOf (owner : String) (phase : Phase) (r : Registry) : List Action :=
  (r.actions.get owner).filter fun a => a.phase = phase

def best (owner : String) (phase : Phase) (c : Command) (r : Registry) : Option (Nat × Action) :=
  Action.best owner c (r.actionsOf owner phase)

/-- The best main action of all owners, with its owner; of equally good ones the first. -/
def bestMain (owners : List String) (c : Command) (r : Registry) : Option (String × Action) :=
  (Action.highest <| owners.filterMap fun owner =>
    (r.best owner .main c).map fun (score, a) => (score, owner, a)).map Prod.snd

def performBest (phase : Phase) (c : Command) (r : Registry) (owner : String) : Eval Bool :=
  match r.best owner phase c with
  | some (_, a) => Resolved.isHandled <$> a.perform owner c
  | none => return false

def runBefore (owners : List String) (c : Command) (r : Registry) : Eval Bool :=
  owners.anyM (r.performBest .before c)

def runAfter (owners : List String) (c : Command) (r : Registry) : Eval Bool := do
  let handled ← owners.mapM (r.performBest .after c)
  return handled.any id

/-- Performs the main action, and the after actions if it handled the command. -/
def runMain (owners : List String) (owner : String) (a : Action) (c : Command) (r : Registry) :
    Eval (Option Phase) := do
  let (result, mainLines) ← Eval.buffered (a.perform owner c)
  if (← Eval.ofExcept result).isHandled then
    let (result, afterLines) ← Eval.buffered (r.runAfter owners c)
    if ← Eval.ofExcept result then
      Eval.write afterLines
      return some .after
    else
      Eval.write (mainLines ++ afterLines)
      return some .main
  else
    Eval.write mainLines
    return none

/-- Runs a command through the phases and gives the one that handled it. -/
def runPhases (owners : List String) (c : Command) (r : Registry) : Eval (Option Phase) := do
  if ← r.runBefore owners c then return some .before
  else
    match r.bestMain owners c with
    | some (owner, a) => r.runMain owners owner a c
    | none => return none

def runEveryTurn (r : Registry) : Eval Unit :=
  r.everyTurn.forM fun (path, rule) =>
    Eval.mapError (·.inAction "every-turn" path) (discard rule.resolve)

/-- Handles a command. What it changed before an error stays changed, but what it wrote is lost. -/
def dispatch (c : Command) (around : Surroundings) (r : Registry) : Eval Outcome := do
  let instant := c.verb?.any Verb.isInstant
  let (result, output) ← Eval.buffered do
    let phase ← r.runPhases (around.owners c) c
    if phase.isSome && !instant then r.runEveryTurn
    return phase
  return ⟨← Eval.ofExcept result, instant, output⟩

end Registry

end TextAdventure
