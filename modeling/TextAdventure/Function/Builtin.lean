import TextAdventure.Eval

/-! # Built-in functions -/
namespace TextAdventure

def occursIn (piece : List Char) : List Char → Bool
  | [] => piece.isEmpty
  | c :: cs => piece.isPrefixOf (c :: cs) || occursIn piece cs

namespace Builtin

def arity (b : Builtin) (least most : Nat) (args : List Value) : Except Error Unit :=
  if least ≤ args.length ∧ args.length ≤ most then .ok ()
  else
    let expected :=
      if least = most then Number.naturalText least
      else Number.naturalText least ++ " to " ++ Number.naturalText most
    .error (.ofFault (.arityMismatch b.name expected args.length))

def joinText (args : List Value) : String :=
  String.join (args.map Value.text)

def bound (v : Value) : Except Error Int :=
  match v with
  | .int n => .ok n.toInt
  | v => .error (v.typeMismatch "int")

/-- How many integers there are from `lo` to `hi`, in saturating arithmetic of 64 bits. -/
def rangeSize (lo hi : Int) : Nat :=
  (Number.clampInt64 ((Number.clampInt64 (hi - lo)).toInt + 1)).toInt.toNat

/-- A double in `[0, 1)`, an integer below a bound, or an integer between two bounds. -/
def runRandom (args : List Value) : Eval Value := do
  Eval.ofExcept (arity .random 0 2 args)
  match args with
  | [] => return .float (← modifyGet Store.randomUnit)
  | [n] =>
    let n ← Eval.ofExcept (bound n)
    return .ofNat (← modifyGet (Store.randomIndex n.toNat))
  | lo :: hi :: _ =>
    let lo ← Eval.ofExcept (bound lo)
    let hi ← Eval.ofExcept (bound hi)
    let offset ← modifyGet (Store.randomIndex (rangeSize lo hi))
    return .int (Number.clampInt64 (lo + offset))

def runPick (args : List Value) : Eval Value := do
  Eval.ofExcept (arity .pick 1 1 args)
  match args.headD .nil with
  | .list [] | .nil => return .nil
  | .list items =>
    let i ← modifyGet (Store.randomIndex items.length)
    return items[i]?.getD .nil
  | other => throw (other.typeMismatch "list")

def runLength (args : List Value) : Eval Value := do
  Eval.ofExcept (arity .length 1 1 args)
  match args.headD .nil with
  | .nil => return .ofNat 0
  | .list items => return .ofNat items.length
  | .map _ entries => return .ofNat entries.length
  | .string s => return .ofNat s.length
  | .entity id => return .ofNat ((((← get).properties? id).map List.length).getD 0)
  | other => throw (other.typeMismatch "collection")

def runIncludes (args : List Value) : Eval Value := do
  Eval.ofExcept (arity .includes 2 2 args)
  let needle := args.getD 1 .nil
  match args.headD .nil with
  | .list items => return .bool (items.any (·.same needle))
  | .string s => return .bool (occursIn needle.text.toList s.toList)
  | .map layout entries => return .bool ((← get).member? (.map layout entries) needle.key).isSome
  | .entity id => return .bool ((← get).member? (.entity id) needle.key).isSome
  | .nil => return .bool false
  | other => throw (other.typeMismatch "collection")

def keyList (bindings : Bindings) : Value :=
  .list ((Dictionary.keys bindings).map .string)

def runKeys (args : List Value) : Eval Value := do
  Eval.ofExcept (arity .keys 1 1 args)
  match args.headD .nil with
  | .map _ entries => return keyList entries
  | .entity id => return keyList (((← get).properties? id).getD [])
  | .nil => return .list []
  | other => throw (other.typeMismatch "map or object")

def runHas (args : List Value) : Eval Value := do
  Eval.ofExcept (arity .has 2 2 args)
  let key := (args.getD 1 .nil).key
  match args.headD .nil with
  | .map layout entries => return .bool ((← get).member? (.map layout entries) key).isSome
  | .entity id => return .bool ((← get).member? (.entity id) key).isSome
  | _ => return .bool false

/-- The first of the numbers that no later one beats, given the best one so far. -/
def extreme (beats : Float → Float → Bool) (best : Option (Float × Value)) :
    List Value → Except Error Value
  | [] => .ok ((best.map Prod.snd).getD .nil)
  | v :: vs => do
    let x ← v.asNumber
    match best with
    | some (y, w) => extreme beats (if beats x y then some (x, v) else some (y, w)) vs
    | none => extreme beats (some (x, v)) vs

/-- A single list stands for the arguments it holds. -/
def spread : List Value → List Value
  | [.list items] => items
  | args => args

def runFloor (args : List Value) : Except Error Value := do
  arity .floor 1 1 args
  match args.headD .nil with
  | .int n => return .int n
  | .float x => return .int (Number.floorInt64 x)
  | other => throw (other.typeMismatch "number")

def run (args : List Value) : Builtin → Eval Value
  | write => do
    Eval.write [joinText args]
    return .bool true
  | str => return .string (joinText args)
  | random => runRandom args
  | pick => runPick args
  | length => runLength args
  | includes => runIncludes args
  | keys => runKeys args
  | has => runHas args
  | min => Eval.ofExcept (extreme (fun x y => x < y) none (spread args))
  | max => Eval.ofExcept (extreme (fun x y => y < x) none (spread args))
  | floor => Eval.ofExcept (runFloor args)

end Builtin

end TextAdventure
