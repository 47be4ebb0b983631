import TextAdventure.Code.Eval
import TextAdventure.Rule

/-! # Running rules

The progress of cycles and of rules that run once is an integer for each key in a map that is bound to
a reserved name, so it can be read and written like other bindings.
-/
namespace TextAdventure

namespace Rule

/-- The name that progress is bound to. -/
def progressName : String :=
  "__rule_state"

def progress (key : String) (s : Store) : Int64 :=
  match s.lookupName progressName with
  | some (.map _ state) => ((Dictionary.get? key state).bind Value.int?).getD 0
  | _ => 0

def setProgress (key : String) (n : Nat) : Eval Unit :=
  Eval.change fun s => do
    return ((), ← s.setKeys progressName [key] (.ofNat n))

/-- The position a cycle of `n` rules has come to. -/
def position (key : String) (n : Nat) (s : Store) : Nat :=
  (progress key s).toInt.toNat % n

def callIfFunction (r : Resolved) : Eval Resolved :=
  match r with
  | .value (.function f) => Resolved.value <$> Function.call f []
  | r => return r

mutual

def resolve : Rule → Eval Resolved
  | constant v => return .value v
  | line text => do
    Eval.write [text]
    return .value (.bool true)
  | script s => s.resolve
  | property s => do callIfFunction (← s.resolve)
  | call f => Resolved.value <$> Function.call f []
  | sequence rules => resolveAll rules .unresolved
  | switch rules => resolveFirst rules
  | choice rules => do
    let i ← modifyGet (Store.randomIndex rules.length)
    resolveAt rules i
  | cycle key rules => do
    let i := position key rules.length (← get)
    let r ← resolveAt rules i
    setProgress key ((i + 1) % rules.length)
    return r
  | once key body => do
    if progress key (← get) ≠ 0 then return .unresolved
    else
      setProgress key 1
      resolve body
  | branch condition yes no => do
    if (← resolve condition).isTruthy then resolve yes else resolve no

def resolveAll : List Rule → Resolved → Eval Resolved
  | [], last => return last
  | rule :: rules, _ => do
    let r ← resolve rule
    resolveAll rules r

def resolveFirst : List Rule → Eval Resolved
  | [] => return .value (.bool false)
  | rule :: rules => do
    let r ← resolve rule
    if r.isTruthy then return r else resolveFirst rules

def resolveAt : List Rule → Nat → Eval Resolved
  | [], _ => return .unresolved
  | rule :: _, 0 => resolve rule
  | _ :: rules, i + 1 => resolveAt rules i

end

end Rule

end TextAdventure
