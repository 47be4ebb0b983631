import TextAdventure.Function.Builtin

/-! # Evaluating code

Code is evaluated from left to right, the value of an assignment before its place. How a function is
called is a parameter: each call that is still allowed evaluates bodies with one call less, so
evaluation ends without any other bound.
-/
namespace TextAdventure

abbrev Caller := Function → List Value → Eval Value

namespace Code

def notCallable (callee : String) (found : Value) : Error :=
  .ofFault (.notCallable (callee ++ " is a " ++ found.typeName))

def function (callee : String) (v : Value) : Except Error Function :=
  match v with
  | .function f => .ok f
  | other => .error (notCallable callee other)

/-- The value an assignment stores, from the present value and the new one. Nothing counts as zero
when a number is added or taken away. -/
def combine (op : AssignOp) (present new : Value) : Except Error Value :=
  let counted := if present.isNil then .int 0 else present
  match op with
  | .set => .ok new
  | .add => BinaryOp.add.apply counted new
  | .sub => BinaryOp.sub.apply counted new

/-- Whether the left operand alone decides a logical operator. -/
def decides (op : LogicalOp) (left : Resolved) : Bool :=
  match op with
  | .and => !left.isTruthy
  | .or => left.isTruthy

def storeName (op : AssignOp) (root : String) (keys : List String) (new : Value) : Eval Resolved :=
  Eval.change fun s => do
    let stored ← combine op (s.follow ((s.lookupName root).getD .nil) keys) new
    let (stored, s) := s.hold stored
    return (.value stored, ← s.setKeys root keys stored)

def storeInto (op : AssignOp) (target : Value) (keys : List String) (new : Value) : Eval Resolved :=
  Eval.change fun s => do
    let stored ← combine op (s.follow target keys) new
    let (stored, s) := s.hold stored
    let (_, t) ← s.assign target keys stored
    return (.value stored, t)

def isTarget (v : Value) (keys : Nat) : Bool :=
  match v with
  | .entity _ => 0 < keys
  | _ => false

mutual

def eval (call : Caller) : Code → Eval Resolved
  | .constant v => return .value (.ofLiteral v)
  | .name n => do
    match (← get).lookupName n with
    | some v => return .value v
    | none => throw (.ofFault (.undefinedSymbol n))
  | .list items => return .value (.list (← evalAll call items))
  | .record entries => return .value (.ofEntries (← evalEntries call entries))
  | .unary op operand => do
    let v ← eval call operand
    return .value (← Eval.ofExcept (op.apply v.get))
  | .binary op left right => do
    let l ← eval call left
    let r ← eval call right
    return .value (← Eval.ofExcept (op.apply l.get r.get))
  | .logical op left right => do
    let l ← eval call left
    if decides op l then return l else eval call right
  | .conditional test consequent alternate => do
    if (← eval call test).isTruthy then eval call consequent else eval call alternate
  | .member container key => do
    let v := (← eval call container).get
    if v.isNil then return .value .nil
    else
      let k := (← eval call key).get.key
      return .value (((← get).member? v k).getD .nil)
  | .assignName op root keys value => do
    let new := (← eval call value).get
    let keys ← evalAll call keys
    storeName op root (keys.map Value.key) new
  | .assignInto op target keys value => do
    let new := (← eval call value).get
    let v := (← eval call target).get
    if isTarget v keys.length then
      let keys ← evalAll call keys
      storeInto op v (keys.map Value.key) new
    else throw (.ofFault (.invalidAssignment ("cannot assign into a " ++ v.typeName)))
  | .callName f args => do
    match (← get).lookupName f with
    | some v =>
      let g ← Eval.ofExcept (function f v)
      return .value (← call g (← evalAll call args))
    | none => throw (.ofFault (.undefinedFunction f))
  | .callValue callee args => do
    let v := (← eval call callee).get
    let g ← Eval.ofExcept (function "value" v)
    return .value (← call g (← evalAll call args))
  | .sequence items => evalLast call items .unresolved

def evalAll (call : Caller) : List Code → Eval (List Value)
  | [] => return []
  | c :: cs => do
    let v ← eval call c
    return v.get :: (← evalAll call cs)

def evalEntries (call : Caller) : List (String × Code) → Eval (List (String × Value))
  | [] => return []
  | (key, c) :: rest => do
    let v ← eval call c
    return (key, v.get) :: (← evalEntries call rest)

def evalLast (call : Caller) : List Code → Resolved → Eval Resolved
  | [], last => return last
  | c :: cs, _ => do
    let r ← eval call c
    evalLast call cs r

end

end Code

/-- Evaluates a script; its errors carry its source text. -/
def Script.evalWith (call : Caller) (script : Script) : Eval Resolved :=
  Eval.mapError (·.inExpression script.source) (script.code.eval call)

namespace ScriptFunction

/-- The bindings of a call: parameters in order, nil for those without an argument, and the list of
all arguments. -/
def bindings (f : ScriptFunction) (args : List Value) : Bindings :=
  let params := f.params.zipIdx.map fun param => (param.1, args[param.2]?.getD .nil)
  Dictionary.insert "arguments" (.list args) (Dictionary.ofList params)

def runWith (call : Caller) (f : ScriptFunction) (args : List Value) : Eval Value := do
  let args ← modifyGet (Store.holdAll args)
  Eval.inScope (.block (f.bindings args)) (Resolved.get <$> f.body.evalWith call)

end ScriptFunction

namespace Function

/-- Calls a function when `calls` more calls may be active. -/
def callWithin : Nat → Caller
  | 0 => fun _ _ => do throw (.ofFault (.limitExceeded (← get).maxCalls))
  | calls + 1 => fun f args =>
    Eval.asCall <|
      match f.callable with
      | .builtin b => b.run args
      | .script g => g.runWith (callWithin calls) args

/-- Calls a function; calls may be nested up to the limit of the store. -/
def call : Caller := fun f args => do
  let s ← get
  callWithin (s.maxCalls - s.activeCalls) f args

end Function

def Script.resolve (script : Script) : Eval Resolved :=
  script.evalWith Function.call

def executePath (path : String) (args : List Value) : Eval Value := do
  match (← get).lookupPath path with
  | some v => Function.call (← Eval.ofExcept (Code.function path v)) args
  | none => throw (.ofFault (.undefinedFunction path))

end TextAdventure
