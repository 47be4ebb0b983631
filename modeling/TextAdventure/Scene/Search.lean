import TextAdventure.Scene.Grammar

/-! # Searching for commands

Walks through the grammar: all complete commands, the words that may come next, and the command that
is spelled by given words. All walks visit commands in the same order, those of a node before those of
its later siblings and each command before the longer ones that begin with it.
-/
namespace TextAdventure

open Grammar (Node)

/-- Whether the last word of a command is the typed word at its position. -/
def Command.agrees (words : List String) (c : Command) : Bool :=
  match c.lastWord? with
  | some word => words[c.length - 1]? = some word
  | none => false

namespace Scene

variable (scene : Scene)

mutual

/-- The complete commands that a node and its descendants make of a command. -/
def commandsAt : Node → Command → Eval (List Command)
  | .node slot complete children, c => do
    let longer ← scene.extend slot c
    let found ← longer.mapM fun next => do
      let rest ← commandsBelow children next
      return if complete then next :: rest else rest
    return found.flatten

def commandsBelow : List Node → Command → Eval (List Command)
  | [], _ => return []
  | n :: ns, c => do
    let found ← commandsAt n c
    return found ++ (← commandsBelow ns c)

end

def commands : Eval (List Command) :=
  commandsBelow scene Grammar.roots .empty

mutual

/-- Whether a command that ends at a node is complete or can be completed. -/
def completes : Node → Command → Eval Bool
  | .node _ complete children, c => if complete then return true else completesBelow children c

def completesBelow : List Node → Command → Eval Bool
  | [], _ => return false
  | .node slot complete children :: ns, c => do
    let longer ← scene.extend slot c
    if ← longer.anyM (completes (.node slot complete children)) then return true
    else completesBelow ns c

end

mutual

/-- The commands one word longer than the typed words that begin with them and can be completed. -/
def nextAt (typed : List String) : Node → Command → Eval (List Command)
  | .node slot complete children, c => do
    let longer ← scene.extend slot c
    let found ← longer.mapM fun next => do
      if typed.length < next.length then
        return if ← completes scene (.node slot complete children) next then [next] else []
      else if next.agrees typed then nextBelow typed children next
      else return []
    return found.flatten

def nextBelow (typed : List String) : List Node → Command → Eval (List Command)
  | [], _ => return []
  | n :: ns, c => do
    let found ← nextAt typed n c
    return found ++ (← nextBelow typed ns c)

end

def next (typed : List String) : Eval (List Command) :=
  nextBelow scene typed Grammar.roots .empty

def nextWords (typed : List String) : Eval (List String) := do
  let found ← scene.next typed
  return firstOfEach id (found.filterMap Command.lastWord?)

mutual

def exactAt (words : List String) : Node → Command → Eval (Option Command)
  | .node slot complete children, c => do
    let longer ← scene.extend slot c
    longer.findSomeM? fun next =>
      if next.agrees words then
        if next.length = words.length then return if complete then some next else none
        else exactBelow words children next
      else return none

def exactBelow (words : List String) : List Node → Command → Eval (Option Command)
  | [], _ => return none
  | n :: ns, c => do
    match ← exactAt words n c with
    | some found => return some found
    | none => exactBelow words ns c

end

def exact (words : List String) : Eval (Option Command) :=
  exactBelow scene words Grammar.roots .empty

end Scene

end TextAdventure
