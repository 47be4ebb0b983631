import TextAdventure.Verb

/-! # Commands

A command is a sentence that grows by one part, and one word, at a time. An object is the direct
object until there is a preposition, and the indirect object from then on.
-/
namespace TextAdventure

inductive PartOfSpeech where
  | verb | directObject | preposition | indirectObject | modifier
  deriving DecidableEq, Repr

inductive Part where
  | verb (v : Verb)
  | directObject (id : String)
  | preposition (word : String)
  | indirectObject (id : String)
  | modifier (kind value : String)
  deriving DecidableEq, Repr

namespace Part

def partOfSpeech : Part → PartOfSpeech
  | verb _ => .verb
  | directObject _ => .directObject
  | preposition _ => .preposition
  | indirectObject _ => .indirectObject
  | modifier .. => .modifier

def word : Part → String
  | verb v => v.id
  | directObject id | indirectObject id => id
  | preposition word => word
  | modifier _ value => value

def verb? : Part → Option Verb
  | verb v => some v
  | _ => none

def object? (role : Role) (p : Part) : Option String :=
  match role, p with
  | .direct, directObject id => some id
  | .indirect, indirectObject id => some id
  | _, _ => none

def preposition? : Part → Option String
  | preposition word => some word
  | _ => none

def modifier? : Part → Option (String × String)
  | modifier kind value => some (kind, value)
  | _ => none

end Part

structure Command where
  parts : List Part
  deriving DecidableEq, Repr

namespace Command

def empty : Command :=
  ⟨[]⟩

def push (p : Part) (c : Command) : Command :=
  ⟨c.parts ++ [p]⟩

@[simp] theorem push_inj {p q : Part} {c : Command} : c.push p = c.push q ↔ p = q := by
  simp [push]

def length (c : Command) : Nat :=
  c.parts.length

def findAll (pos : PartOfSpeech) (c : Command) : List Part :=
  c.parts.filter fun p => p.partOfSpeech = pos

/-- The latest part with a part of speech. -/
def find? (pos : PartOfSpeech) (c : Command) : Option Part :=
  (c.findAll pos).getLast?

def position? (c : Command) : Option PartOfSpeech :=
  c.parts.getLast?.map Part.partOfSpeech

def verb? (c : Command) : Option Verb :=
  (c.parts.filterMap Part.verb?).getLast?

def object? (role : Role) (c : Command) : Option String :=
  (c.parts.filterMap (Part.object? role)).getLast?

def preposition? (c : Command) : Option String :=
  (c.parts.filterMap Part.preposition?).getLast?

def modifiers (c : Command) : List (String × String) :=
  c.parts.filterMap Part.modifier?

def withVerb (v : Verb) (c : Command) : Command :=
  c.push (.verb v)

def withObject (id : String) (c : Command) : Command :=
  c.push (if c.preposition?.isSome then .indirectObject id else .directObject id)

def withPreposition (word : String) (c : Command) : Command :=
  c.push (.preposition word)

def withModifier (kind value : String) (c : Command) : Command :=
  c.push (.modifier kind value)

theorem verb?_push (p : Part) (c : Command) : (c.push p).verb? = p.verb?.or c.verb? := by
  cases hp : p.verb? <;> simp [push, verb?, hp]

@[simp] theorem verb?_withVerb (v : Verb) (c : Command) : (c.withVerb v).verb? = some v :=
  verb?_push (.verb v) c

@[simp] theorem verb?_withObject (id : String) (c : Command) :
    (c.withObject id).verb? = c.verb? := by
  rw [withObject, verb?_push]
  split <;> rfl

@[simp] theorem verb?_withPreposition (word : String) (c : Command) :
    (c.withPreposition word).verb? = c.verb? :=
  verb?_push (.preposition word) c

@[simp] theorem verb?_withModifier (kind value : String) (c : Command) :
    (c.withModifier kind value).verb? = c.verb? :=
  verb?_push (.modifier kind value) c

theorem withObject_eq_push (id : String) (c : Command) :
    ∃ p : Part, p.modifier? = none ∧ c.withObject id = c.push p := by
  unfold withObject
  split <;> exact ⟨_, rfl, rfl⟩

theorem withObject_inj {id other : String} {c : Command} (h : c.withObject id = c.withObject other) :
    id = other := by
  unfold withObject at h
  split at h <;> simpa using h

def words (c : Command) : List String :=
  c.parts.map Part.word

def lastWord? (c : Command) : Option String :=
  c.parts.getLast?.map Part.word

@[simp] theorem words_empty : empty.words = [] := rfl

@[simp] theorem length_words (c : Command) : c.words.length = c.length := by
  simp [words, length]

@[simp] theorem words_push (p : Part) (c : Command) : (c.push p).words = c.words ++ [p.word] := by
  simp [words, push]

@[simp] theorem length_push (p : Part) (c : Command) : (c.push p).length = c.length + 1 := by
  simp [length, push]

@[simp] theorem lastWord?_push (p : Part) (c : Command) : (c.push p).lastWord? = some p.word := by
  simp [lastWord?, push]

def text (c : Command) : String :=
  String.intercalate " " c.words

end Command

end TextAdventure
