import TextAdventure.Proofs.Scene.Enumeration

/-! # The shapes of enumerated commands

A complete command is a verb, a verb and a modifier, a verb and an object with or without a modifier, or
a verb and an object followed by a preposition and an indirect object. The verb and what it declares fix
which of these shapes it has.
-/
namespace TextAdventure

open Eval
open Grammar (Node Slot)

namespace Scene

variable {scene : Scene} {s t : Store}

/-- The shapes of complete commands. -/
inductive Shape (scene : Scene) : Command → Prop
  | alone {v : Verb} (hv : v ∈ Dictionary.values scene.verbs) (hi : v.isIntransitive = true) :
      Shape scene ⟨[.verb v]⟩
  | modified {v : Verb} {kind : String} (hv : v ∈ Dictionary.values scene.verbs)
      (hi : v.isIntransitive = true) (hk : kind ∈ v.modifiers) (value : String) :
      Shape scene ⟨[.verb v, .modifier kind value]⟩
  | object {v : Verb} (hv : v ∈ Dictionary.values scene.verbs) (ht : v.isTransitive = true)
      (id : String) : Shape scene ⟨[.verb v, .directObject id]⟩
  | objectModified {v : Verb} {kind : String} (hv : v ∈ Dictionary.values scene.verbs)
      (ht : v.isTransitive = true) (hk : kind ∈ v.modifiers) (id value : String) :
      Shape scene ⟨[.verb v, .directObject id, .modifier kind value]⟩
  | indirect {v : Verb} {word : String} (hv : v ∈ Dictionary.values scene.verbs)
      (ht : v.isTransitive = true) (hw : word ∈ v.prepositions) (id other : String) :
      Shape scene ⟨[.verb v, .directObject id, .preposition word, .indirectObject other]⟩

theorem Derives.grows {grows : Slot → Command → Command → Prop} {slot : Slot} {c found : Command}
    (h : Derives grows (.node slot true []) c found) : grows slot c found := by
  cases h with
  | last h => exact h
  | step _ hc _ => cases hc

theorem shape_of_intransitive {found : Command}
    (h : Derives (Grows scene) Grammar.intransitive .empty found) : Shape scene found := by
  cases h with
  | last h =>
    cases h with
    | intransitiveVerb hv hi => exact .alone hv hi
  | step h hc hd =>
    cases List.mem_singleton.mp hc
    cases h with
    | intransitiveVerb hv hi =>
      cases hd.grows with
      | modifier hv' hk value =>
        cases hv'
        exact .modified hv hi hk value

theorem shape_of_transitive {found : Command}
    (h : Derives (Grows scene) Grammar.transitive .empty found) : Shape scene found := by
  cases h with
  | step h hc hd =>
    cases List.mem_singleton.mp hc
    cases h with
    | transitiveVerb hv ht =>
      cases hd with
      | last h =>
        cases h with
        | directObject id => exact .object hv ht id
      | step h hc hd =>
        cases h with
        | directObject id =>
          rcases List.mem_pair.mp hc with rfl | rfl
          · cases hd.grows with
            | modifier hv' hk value =>
              cases hv'
              exact .objectModified hv ht hk id value
          · cases hd with
            | step h hc hd =>
              cases List.mem_singleton.mp hc
              cases h with
              | preposition hv' hw =>
                cases hv'
                cases hd.grows with
                | indirectObject other => exact .indirect hv ht hw id other

/-- Every enumerated command has one of the shapes, whatever the conditions do to the store. -/
theorem shape_of_mem_commands {found : List Command} (h : runOn scene.commands s = (.ok found, t))
    {c : Command} (hc : c ∈ found) : Shape scene c := by
  obtain ⟨n, hn, hd⟩ := derives_of_mem_commandsBelow Grammar.roots h hc
  rcases List.mem_pair.mp hn with rfl | rfl
  · exact shape_of_intransitive hd
  · exact shape_of_transitive hd

end Scene

end TextAdventure
