import TextAdventure.Code

/-! # Functions

A function of the language is built in or has a script for a body. Two functions are the same only if
they have the same identity, however much they look alike.
-/
namespace TextAdventure

inductive Builtin where
  | write | str | random | pick | length | includes | keys | has | min | max | floor
  deriving DecidableEq, Repr

namespace Builtin

def name : Builtin → String
  | write => "write"
  | str => "str"
  | random => "random"
  | pick => "pick"
  | length => "length"
  | includes => "includes"
  | keys => "keys"
  | has => "has"
  | min => "min"
  | max => "max"
  | floor => "floor"

def all : List Builtin :=
  [write, str, random, pick, length, includes, keys, has, min, max, floor]

end Builtin

structure ScriptFunction where
  name : String
  params : List String
  body : Script

/-- Compiles the body; an error is reported at the name of the function. -/
def ScriptFunction.compile (name : String) (params : List String) (source : String) :
    Except Error ScriptFunction :=
  match Script.compile source with
  | .ok body => .ok ⟨name, params, body⟩
  | .error e => .error (e.atPath name)

inductive Callable where
  | builtin (b : Builtin)
  | script (f : ScriptFunction)

structure Function where
  identity : Nat
  callable : Callable

def Function.name (f : Function) : String :=
  match f.callable with
  | .builtin b => b.name
  | .script g => g.name

end TextAdventure
