import TextAdventure.Store
import TextAdventure.Value.Operator

/-! # Paths through values

A key leads into a map, an entity or a list. Reading past the end of what is there gives nothing.
Writing rebuilds the maps and lists on its way and changes entities in place; missing containers are
made as maps. A write that fails leaves the store as it was.
-/
namespace TextAdventure

/-- The list position a key names: decimal digits, which a plus sign may precede, below `2 ^ 64`. -/
def listIndex? (key : String) : Option Nat :=
  let digits :=
    match key.toList with
    | '+' :: rest => rest
    | cs => cs
  if digits.isEmpty || !digits.all Char.isDigit then none
  else
    let n := Token.digitsValue digits
    if n < Nat.pow 2 64 then some n else none

/-- The characters before the first point and those between the points after it. -/
def splitAtPoints : List Char → List Char × List (List Char)
  | [] => ([], [])
  | c :: cs =>
    let (first, rest) := splitAtPoints cs
    if c = '.' then ([], first :: rest) else (c :: first, rest)

/-- A dotted path as a name and the keys that follow it. -/
def pathSegments (path : String) : String × List String :=
  let (first, rest) := splitAtPoints path.toList
  (String.ofList first, rest.map String.ofList)

namespace Store

def member? (container : Value) (key : String) (s : Store) : Option Value :=
  match container with
  | .map _ entries => Dictionary.get? key entries
  | .entity id => s.property? id key
  | .list items =>
    if key = "length" then some (.ofNat items.length)
    else (listIndex? key).bind (items[·]?)
  | .string text => if key = "length" then some (.ofNat text.length) else none
  | _ => none

/-- Reads below a value, where nothing counts as nil. -/
def follow (start : Value) (keys : List String) (s : Store) : Value :=
  keys.foldl (fun v key => (s.member? v key).getD .nil) start

/-- Writes `value` below `target` and gives the target as it is afterwards. -/
def assign (target : Value) (keys : List String) (value : Value) (s : Store) :
    Except Error (Value × Store) :=
  match keys with
  | [] => .ok (value, s)
  | key :: keys =>
    match target with
    | .entity id => do
      let (updated, s) ← s.assign ((s.property? id key).getD .nil) keys value
      return (.entity id, s.setProperty id key updated)
    | .map layout entries => do
      let (updated, s) ← s.assign ((Dictionary.get? key entries).getD .nil) keys value
      let (mark, s) := s.freshIdentity
      return (.mapWith mark key updated layout entries, s)
    | .nil => do
      let (updated, s) ← s.assign .nil keys value
      let (mark, s) := s.freshIdentity
      return (.mapWith mark key updated .empty [], s)
    | .list items =>
      match listIndex? key with
      | some i => do
        let (updated, s) ← s.assign (items[i]?.getD .nil) keys value
        return (.list (if i < items.length then items.set i updated else items ++ [updated]), s)
      | none => .error (.ofFault (.typeMismatch "list index" "string"))
    | other => .error (other.typeMismatch "map or object")

/-- Writes below a name in its first definition, or in the globals if there is none. -/
def setKeys (name : String) (keys : List String) (value : Value) (s : Store) :
    Except Error Store :=
  match keys with
  | [] => .ok (s.bindAt (s.owner name) name value)
  | keys => do
    let (updated, t) ← s.assign ((s.lookupName name).getD .nil) keys value
    return t.bindAt (s.owner name) name updated

def getPath (path : String) (s : Store) : Except Error Value :=
  let (name, keys) := pathSegments path
  match s.lookupName name with
  | some v => .ok (s.follow v keys)
  | none => .error (.ofFault (.undefinedSymbol name))

/-- The value at a dotted path, if every step of it leads somewhere. -/
def lookupPath (path : String) (s : Store) : Option Value :=
  let (name, keys) := pathSegments path
  (s.lookupName name).bind fun v => keys.foldlM (fun v key => s.member? v key) v

def setPath (path : String) (value : Value) (s : Store) : Except Error Store :=
  let (name, keys) := pathSegments path
  s.setKeys name keys value

end Store

end TextAdventure
