import TextAdventure.Proofs.Eval.Compositional
import TextAdventure.Scene.Search

/-! # What every search is made of

A search runs no other code than the conditions of the offers in its scene, in whatever order. So a
property that computations have by their parts is one of all searches if it is one of these.
-/
namespace TextAdventure

open Grammar (Node)

/-- It has the property to ask whether an offer of the scene stands. -/
def Scene.OffersHave (P : (α : Type) → Eval α → Prop) (scene : Scene) : Prop :=
  ∀ e ∈ scene.groups.values, ∀ o ∈ e.verbs, P Bool (o.stands e.id)

namespace Eval

namespace Compositional

variable {P : (α : Type) → Eval α → Prop} (hP : Compositional P) {scene : Scene}
include hP

theorem objects (hoffers : scene.OffersHave P) (role : Role) (v : Verb) (preposition : Option String)
    (candidate : Entity → Bool) :
    P (List Entity) (scene.objects role v preposition candidate) := by
  apply hP.filterM
  intro e he
  have hscene := Scene.mem_values_of_mem_candidates (List.mem_filter.mp he).1
  apply hP.anyM
  intro o ho
  exact hoffers e hscene o (List.mem_filter.mp ho).1

theorem extend (hoffers : scene.OffersHave P) (slot : Grammar.Slot) (c : Command) :
    P (List Command) (scene.extend slot c) := by
  cases slot with
  | directObject =>
    simp only [Scene.extend, Scene.directObjects]
    split
    · exact hP.bind (hP.objects hoffers _ _ _ _) fun found => hP.pure _
    · exact hP.pure []
  | indirectObject =>
    simp only [Scene.extend, Scene.indirectObjects]
    split
    · exact hP.bind (hP.objects hoffers _ _ _ _) fun found => hP.pure _
    · exact hP.pure []
  | intransitiveVerb | transitiveVerb | modifier | preposition => exact hP.pure _

mutual

theorem commandsAt (hoffers : scene.OffersHave P) : ∀ (n : Node) (c : Command),
    P (List Command) (scene.commandsAt n c)
  | .node slot complete children, c => by
    rw [Scene.commandsAt]
    apply hP.bind (hP.extend hoffers slot c)
    intro longer
    refine hP.bind (hP.mapM fun next _ => ?_) fun found => hP.pure _
    exact hP.bind (commandsBelow hoffers children next) fun rest => hP.pure _

theorem commandsBelow (hoffers : scene.OffersHave P) : ∀ (ns : List Node) (c : Command),
    P (List Command) (scene.commandsBelow ns c)
  | [], c => by
    rw [Scene.commandsBelow]
    exact hP.pure []
  | n :: ns, c => by
    rw [Scene.commandsBelow]
    apply hP.bind (commandsAt hoffers n c)
    intro found
    exact hP.bind (commandsBelow hoffers ns c) fun rest => hP.pure _

end

mutual

theorem completes (hoffers : scene.OffersHave P) : ∀ (n : Node) (c : Command),
    P Bool (scene.completes n c)
  | .node slot complete children, c => by
    rw [Scene.completes]
    split
    · exact hP.pure true
    · exact completesBelow hoffers children c

theorem completesBelow (hoffers : scene.OffersHave P) : ∀ (ns : List Node) (c : Command),
    P Bool (scene.completesBelow ns c)
  | [], c => by
    rw [Scene.completesBelow]
    exact hP.pure false
  | .node slot complete children :: ns, c => by
    rw [Scene.completesBelow]
    apply hP.bind (hP.extend hoffers slot c)
    intro longer
    refine hP.bind (hP.anyM fun next _ => completes hoffers _ next) fun b => ?_
    split
    · exact hP.pure true
    · exact completesBelow hoffers ns c

end

mutual

theorem nextAt (hoffers : scene.OffersHave P) (typed : List String) :
    ∀ (n : Node) (c : Command), P (List Command) (scene.nextAt typed n c)
  | .node slot complete children, c => by
    rw [Scene.nextAt]
    apply hP.bind (hP.extend hoffers slot c)
    intro longer
    refine hP.bind (hP.mapM fun next _ => ?_) fun found => hP.pure _
    split
    · exact hP.bind (hP.completes hoffers _ next) fun b => hP.pure _
    · split
      · exact nextBelow hoffers typed children next
      · exact hP.pure []

theorem nextBelow (hoffers : scene.OffersHave P) (typed : List String) :
    ∀ (ns : List Node) (c : Command), P (List Command) (scene.nextBelow typed ns c)
  | [], c => by
    rw [Scene.nextBelow]
    exact hP.pure []
  | n :: ns, c => by
    rw [Scene.nextBelow]
    apply hP.bind (nextAt hoffers typed n c)
    intro found
    exact hP.bind (nextBelow hoffers typed ns c) fun rest => hP.pure _

end

mutual

theorem exactAt (hoffers : scene.OffersHave P) (words : List String) :
    ∀ (n : Node) (c : Command), P (Option Command) (scene.exactAt words n c)
  | .node slot complete children, c => by
    rw [Scene.exactAt]
    apply hP.bind (hP.extend hoffers slot c)
    intro longer
    apply hP.findSomeM?
    intro next _
    split
    · split
      · split
        · exact hP.pure _
        · exact hP.pure none
      · exact exactBelow hoffers words children next
    · exact hP.pure none

theorem exactBelow (hoffers : scene.OffersHave P) (words : List String) :
    ∀ (ns : List Node) (c : Command), P (Option Command) (scene.exactBelow words ns c)
  | [], c => by
    rw [Scene.exactBelow]
    exact hP.pure none
  | n :: ns, c => by
    rw [Scene.exactBelow]
    apply hP.bind (exactAt hoffers words n c)
    intro found
    split
    · exact hP.pure _
    · exact exactBelow hoffers words ns c

end

theorem commands (hoffers : scene.OffersHave P) : P (List Command) scene.commands :=
  hP.commandsBelow hoffers Grammar.roots .empty

theorem next (hoffers : scene.OffersHave P) (typed : List String) :
    P (List Command) (scene.next typed) :=
  hP.nextBelow hoffers typed Grammar.roots .empty

theorem nextWords (hoffers : scene.OffersHave P) (typed : List String) :
    P (List String) (scene.nextWords typed) :=
  hP.bind (hP.next hoffers typed) fun _ => hP.pure _

theorem exact (hoffers : scene.OffersHave P) (words : List String) :
    P (Option Command) (scene.exact words) :=
  hP.exactBelow hoffers words Grammar.roots .empty

end Compositional

end Eval

end TextAdventure
