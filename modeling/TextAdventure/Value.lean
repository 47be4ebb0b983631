import TextAdventure.Dictionary.Layout
import TextAdventure.Function
import TextAdventure.Number.Notation
import TextAdventure.Text.Bracketed
import TextAdventure.Text.Quoted

/-! # Values

Values are immutable, apart from entities: an entity is a reference to properties that the store owns.
Equality crosses integers with floats and entities with strings; NaN differs from itself. Two maps are
the same if their entries are, where entries that lie in a block of both count as the same unseen. A map
that is read from a name twice is therefore the same, whatever it has in it, while maps built apart are
compared entry by entry.
-/
namespace TextAdventure

inductive Value where
  | nil
  | bool (b : Bool)
  | int (n : Int64)
  | float (x : Float)
  | string (s : String)
  | list (items : List Value)
  /-- Entries sorted by key, and how they are spread over blocks. -/
  | map (layout : Layout) (entries : List (String × Value))
  /-- A reference to an entity by its id. -/
  | entity (id : String)
  | function (f : Function)

/-- Named values: the bindings of a scope or the properties of an entity. -/
abbrev Bindings := Dictionary Value

namespace Value

instance : Inhabited Value := ⟨.nil⟩

def ofLiteral : Literal → Value
  | .nil => .nil
  | .bool b => .bool b
  | .int n => .int n
  | .float x => .float x
  | .string s => .string s

def ofNat (n : Nat) : Value :=
  .int (Number.clampInt64 n)

def mapWith (mark : Option Nat) (key : String) (value : Value) (layout : Layout)
    (entries : Bindings) : Value :=
  .map (layout.write mark key entries) (Dictionary.insert key value entries)

/-- The map built by writing one entry after the other; of equal keys the last one stays. -/
def ofEntries (entries : List (String × Value)) : Value :=
  .map (.ofKeys (entries.map Prod.fst)) (Dictionary.ofList entries)

def typeName : Value → String
  | nil => "nil"
  | bool _ => "bool"
  | int _ => "int"
  | float _ => "float"
  | string _ => "string"
  | list _ => "list"
  | map .. => "map"
  | entity _ => "object"
  | function _ => "function"

def isNil : Value → Bool
  | nil => true
  | _ => false

/-- Nil, false, zero, NaN and the empty string are not truthy. -/
def isTruthy : Value → Bool
  | nil => false
  | bool b => b
  | int n => n != 0
  | float x => x != 0 && !x.isNaN
  | string s => !s.isEmpty
  | list _ | map .. | entity _ | function _ => true

def int? : Value → Option Int64
  | int n => some n
  | _ => none

def number? : Value → Option Float
  | int n => some (Number.ofInt64 n)
  | float x => some x
  | _ => none

def boolText (b : Bool) : String :=
  if b then "true" else "false"

mutual

def text : Value → String
  | nil => "nil"
  | bool b => boolText b
  | int n => Number.integerText n.toInt
  | float x => Number.floatText .plain x
  | string s => s
  | list items => Text.brackets (texts items)
  | map _ entries => Text.braces (entryTexts entries)
  | entity id => id
  | function f => "<fn " ++ f.name ++ ">"

def texts : List Value → List String
  | [] => []
  | v :: vs => text v :: texts vs

def entryTexts : List (String × Value) → List String
  | [] => []
  | (key, v) :: rest => (key ++ ": " ++ text v) :: entryTexts rest

end

mutual

def inspect : Value → String
  | nil => "nil"
  | bool b => boolText b
  | int n => Number.integerText n.toInt
  | float x => Number.floatText .inspected x
  | string s => Text.quote s
  | list items => Text.brackets (inspects items)
  | map _ entries => Text.braces (entryInspects entries)
  | entity id => "#" ++ id
  | function f => "<fn " ++ f.name ++ ">"

def inspects : List Value → List String
  | [] => []
  | v :: vs => inspect v :: inspects vs

def entryInspects : List (String × Value) → List String
  | [] => []
  | (key, v) :: rest => (Text.quote key ++ ": " ++ inspect v) :: entryInspects rest

end

/-- The key a value stands for when it indexes a map or an entity. -/
def key (v : Value) : String :=
  v.text

mutual

def same : Value → Value → Bool
  | nil, nil => true
  | bool a, bool b => a == b
  | int a, int b => a == b
  | float a, float b => a == b
  | int a, float b => Number.ofInt64 a == b
  | float a, int b => Number.ofInt64 b == a
  | string a, string b => a == b
  | list as, list bs => sameAll as bs
  | map l as, map m bs => sameEntries (l.shared m) as bs
  | entity a, entity b => a == b
  | entity a, string b => a == b
  | string a, entity b => b == a
  | function f, function g => f.identity == g.identity
  | _, _ => false

def sameAll : List Value → List Value → Bool
  | [], [] => true
  | a :: as, b :: bs => same a b && sameAll as bs
  | _, _ => false

/-- Whether entries are the same, given for each of them whether both sides share it. -/
def sameEntries (shared : List Bool) : List (String × Value) → List (String × Value) → Bool
  | [], [] => true
  | (k, a) :: as, (l, b) :: bs =>
    k == l && (shared.headD false || same a b) && sameEntries shared.tail as bs
  | _, _ => false

end

instance : BEq Value := ⟨same⟩

theorem sameEntries_of_shared (entries : List (String × Value)) :
    sameEntries (List.replicate entries.length true) entries entries = true := by
  induction entries with
  | nil => simp [sameEntries]
  | cons entry rest ih =>
    obtain ⟨k, v⟩ := entry
    simp [sameEntries, List.replicate_succ, ih]

theorem same_map_self {l : Layout} {entries : List (String × Value)} (h : l.mark.isSome)
    (hl : l.size = entries.length) : same (map l entries) (map l entries) = true := by
  simp [same, Layout.shared_self h, hl, sameEntries_of_shared]

mutual

/-- Marks the maps in a value that nothing holds yet, from `next` on, and gives the next free mark. -/
def hold : Value → Nat → Value × Nat
  | list items, next =>
    let (items, next) := holdAll items next
    (list items, next)
  | map layout entries, next =>
    if layout.mark.isSome then (map layout entries, next)
    else
      let (entries, free) := holdEntries entries (next + 1)
      (map (layout.withMark next) entries, free)
  | v, next => (v, next)

def holdAll : List Value → Nat → List Value × Nat
  | [], next => ([], next)
  | v :: vs, next =>
    let (v, next) := hold v next
    let (vs, next) := holdAll vs next
    (v :: vs, next)

def holdEntries : List (String × Value) → Nat → List (String × Value) × Nat
  | [], next => ([], next)
  | (key, v) :: rest, next =>
    let (v, next) := hold v next
    let (rest, next) := holdEntries rest next
    ((key, v) :: rest, next)

end

end Value

/-- The outcome of evaluating code or a rule: a value, or nothing at all. -/
inductive Resolved where
  | unresolved
  | value (v : Value)

namespace Resolved

def get : Resolved → Value
  | unresolved => .nil
  | value v => v

def isResolved : Resolved → Bool
  | unresolved => false
  | value _ => true

def isTruthy : Resolved → Bool
  | unresolved => false
  | value v => v.isTruthy

/-- Whether the outcome counts as having handled a command: any value but `false` does. -/
def isHandled : Resolved → Bool
  | unresolved => false
  | value (.bool false) => false
  | value _ => true

end Resolved

end TextAdventure
