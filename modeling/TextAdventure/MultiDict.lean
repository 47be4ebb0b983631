import TextAdventure.Dictionary
import TextAdventure.Text.Bracketed
import TextAdventure.Text.Quoted

/-! # Dictionaries with several values under a key

Keys are sorted and the values under one key keep the order in which they were inserted. A group is
made by the insertion of its first value, so no group is empty.
-/
namespace TextAdventure

structure MultiDict (α : Type u) where
  groups : Dictionary (List α)

namespace MultiDict

variable {α : Type u}

def empty : MultiDict α :=
  ⟨[]⟩

def get (key : String) (d : MultiDict α) : List α :=
  (Dictionary.get? key d.groups).getD []

def insert (key : String) (value : α) (d : MultiDict α) : MultiDict α :=
  ⟨Dictionary.insert key (d.get key ++ [value]) d.groups⟩

/-- The dictionary an insertion history leads to. -/
def ofHistory (history : List (String × α)) : MultiDict α :=
  history.foldl (fun d entry => d.insert entry.1 entry.2) empty

def contains (key : String) (d : MultiDict α) : Bool :=
  !(d.get key).isEmpty

def keys (d : MultiDict α) : List String :=
  Dictionary.keys d.groups

def values (d : MultiDict α) : List α :=
  (Dictionary.values d.groups).flatten

/-- One pair for each inserted value, by key and then by age. -/
def toList (d : MultiDict α) : List (String × α) :=
  d.groups.flatMap fun group => group.2.map fun value => (group.1, value)

def size (d : MultiDict α) : Nat :=
  (Dictionary.values d.groups).flatten.length

def isEmpty (d : MultiDict α) : Bool :=
  d.size = 0

def inspect (valueText : α → String) (d : MultiDict α) : String :=
  Text.braces <| d.groups.map fun group =>
    Text.quote group.1 ++ ": " ++ Text.brackets (group.2.map valueText)

@[simp] theorem get_empty (key : String) : (empty : MultiDict α).get key = [] := rfl

@[simp] theorem get_insert_self (key : String) (value : α) (d : MultiDict α) :
    (d.insert key value).get key = d.get key ++ [value] := by
  simp [insert, get]

@[simp] theorem get_insert_of_ne {key other : String} (h : other ≠ key) (value : α)
    (d : MultiDict α) : (d.insert key value).get other = d.get other := by
  simp [insert, get, h]

theorem mem_values_of_mem_get {key : String} {value : α} {d : MultiDict α} (h : value ∈ d.get key) :
    value ∈ d.values := by
  unfold get at h
  cases hg : Dictionary.get? key d.groups with
  | none =>
    rw [hg] at h
    cases h
  | some group =>
    rw [hg] at h
    exact List.mem_flatten.mpr ⟨group, Dictionary.mem_values_of_get? hg, h⟩

end MultiDict

end TextAdventure
