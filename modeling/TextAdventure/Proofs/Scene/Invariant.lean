import TextAdventure.Proofs.Eval.Invariant
import TextAdventure.Proofs.Scene.Walk

/-! # What every search keeps

A search changes the store only where it asks whether offers stand, in scopes that it closes again. So
it has every property that is closed where functions are called as the store allows, and keeps every
relation that evaluation keeps.
-/
namespace TextAdventure

namespace Eval

namespace RunClosed

variable {Q : (α : Type) → Eval α → Prop} (hQ : RunClosed Q)
include hQ

theorem stands (id : String) (o : Offer) : Q Bool (o.stands id) := by
  unfold Offer.stands
  split
  · exact hQ.pure true
  · exact hQ.inScope _ (hQ.inScope _ (hQ.map _ (hQ.resolveScript _)))

theorem offers (verb : String) (preposition : Option String) (e : Entity) :
    Q Bool (e.offers verb preposition) :=
  hQ.compositional.anyM fun o _ => hQ.stands e.id o

variable (scene : Scene)

theorem offersHave : scene.OffersHave Q :=
  fun e _ o _ => hQ.stands e.id o

theorem commands : Q (List Command) scene.commands :=
  hQ.compositional.commands (hQ.offersHave scene)

theorem next (typed : List String) : Q (List Command) (scene.next typed) :=
  hQ.compositional.next (hQ.offersHave scene) typed

theorem nextWords (typed : List String) : Q (List String) (scene.nextWords typed) :=
  hQ.compositional.nextWords (hQ.offersHave scene) typed

theorem exact (words : List String) : Q (Option Command) (scene.exact words) :=
  hQ.compositional.exact (hQ.offersHave scene) words

end RunClosed

namespace Invariant

variable {R : Store → Store → Prop} (hR : Invariant R)
include hR

theorem offers (verb : String) (preposition : Option String) (e : Entity) :
    Respects R (e.offers verb preposition) :=
  hR.runClosed.offers verb preposition e

variable (scene : Scene)

theorem commands : Respects R scene.commands :=
  hR.runClosed.commands scene

theorem next (typed : List String) : Respects R (scene.next typed) :=
  hR.runClosed.next scene typed

theorem nextWords (typed : List String) : Respects R (scene.nextWords typed) :=
  hR.runClosed.nextWords scene typed

theorem exact (words : List String) : Respects R (scene.exact words) :=
  hR.runClosed.exact scene words

end Invariant

end Eval

end TextAdventure
