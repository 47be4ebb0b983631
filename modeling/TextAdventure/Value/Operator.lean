import TextAdventure.Error
import TextAdventure.Value

/-! # Operators on values

Integer arithmetic stays integral and wraps around; a division or remainder that has no integer result
is one of doubles. Strings absorb the other operand of `+` as text, and lists are joined by it.
-/
namespace TextAdventure

namespace Value

def typeMismatch (expected : String) (found : Value) : Error :=
  .ofFault (.typeMismatch expected found.typeName)

def asNumber (v : Value) : Except Error Float :=
  match v.number? with
  | some x => .ok x
  | none => .error (typeMismatch "number" v)

/-- Whether division by `b` of `a` has a quotient and a remainder of 64 bits. -/
def isDivisible (a b : Int64) : Bool :=
  b != 0 && !(a == Int64.minValue && b == -1)

/-- The result of an arithmetic operator among the integers, if there is one. -/
def integerArithmetic? (op : BinaryOp) (a b : Int64) : Option Int64 :=
  match op with
  | .add => some (a + b)
  | .sub => some (a - b)
  | .mul => some (a * b)
  | .div => if isDivisible a b && a % b == 0 then some (a / b) else none
  | .rem => if isDivisible a b then some (a % b) else none
  | _ => none

def floatArithmetic (op : BinaryOp) (x y : Float) : Float :=
  match op with
  | .add => x + y
  | .sub => x - y
  | .mul => x * y
  | .div => x / y
  | _ => Number.remainder x y

/-- Arithmetic of doubles on two numbers of any kind. -/
def mixedArithmetic (op : BinaryOp) (left right : Value) : Except Error Value := do
  let x ← left.asNumber
  let y ← right.asNumber
  return .float (floatArithmetic op x y)

def arithmetic (op : BinaryOp) (left right : Value) : Except Error Value :=
  match left, right with
  | .int a, .int b =>
    match integerArithmetic? op a b with
    | some n => .ok (.int n)
    | none => mixedArithmetic op left right
  | _, _ => mixedArithmetic op left right

def add (left right : Value) : Except Error Value :=
  match left, right with
  | .string s, _ => .ok (.string (s ++ right.text))
  | _, .string s => .ok (.string (left.text ++ s))
  | .list as, .list bs => .ok (.list (as ++ bs))
  | _, _ => arithmetic .add left right

def compareFloats (x y : Float) : Option Ordering :=
  if x < y then some .lt
  else if x == y then some .eq
  else if y < x then some .gt
  else none

/-- The order of two strings or of two numbers. Numbers are compared as doubles. -/
def compareValues (left right : Value) : Except Error (Option Ordering) :=
  match left, right with
  | .string a, .string b => .ok (some (compare a b))
  | _, _ =>
    match left.number?, right.number? with
    | some x, some y => .ok (compareFloats x y)
    | none, _ => .error (typeMismatch "number or string" left)
    | _, none => .error (typeMismatch "number or string" right)

def strictlySame (left right : Value) : Bool :=
  left.typeName == right.typeName && left.same right

end Value

/-- Whether an ordering satisfies a comparison operator. -/
def BinaryOp.holds (op : BinaryOp) (o : Ordering) : Bool :=
  match op with
  | .lt => o == .lt
  | .le => o != .gt
  | .gt => o == .gt
  | _ => o != .lt

def BinaryOp.compareWith (op : BinaryOp) (left right : Value) : Except Error Value := do
  let order ← left.compareValues right
  return .bool ((order.map op.holds).getD false)

def BinaryOp.apply (op : BinaryOp) (left right : Value) : Except Error Value :=
  match op with
  | .add => left.add right
  | .sub | .mul | .div | .rem => Value.arithmetic op left right
  | .eq => .ok (.bool (left.same right))
  | .ne => .ok (.bool (!left.same right))
  | .strictEq => .ok (.bool (left.strictlySame right))
  | .strictNe => .ok (.bool (!left.strictlySame right))
  | .lt | .le | .gt | .ge => op.compareWith left right

def UnaryOp.apply (op : UnaryOp) (v : Value) : Except Error Value :=
  match op, v with
  | .not, v => .ok (.bool (!v.isTruthy))
  | .neg, .int n => .ok (.int (-n))
  | .neg, .float x => .ok (.float (-x))
  | .plus, .int n => .ok (.int n)
  | .plus, .float x => .ok (.float x)
  | _, v => .error (v.typeMismatch "number")

end TextAdventure
