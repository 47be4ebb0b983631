import TextAdventure.Proofs.Eval.Steady
import TextAdventure.Proofs.Scene.Walk

/-! # Stores that a search passes through

A search does nothing to the store but ask about the offers in its scene. A condition keeps the store if
nothing in it changes but the next mark: marks are given to the maps that a call makes on the way, and
what the store holds does not depend on how many were given away.
-/
namespace TextAdventure

open Eval

/-- One store is the other but for the mark that the next map gets. -/
def Store.UpToMarks (s t : Store) : Prop :=
  t = { s with nextIdentity := t.nextIdentity }

theorem Store.upToMarks_withMark (s : Store) (n : Nat) :
    s.UpToMarks { s with nextIdentity := n } :=
  rfl

namespace Scene

variable {scene : Scene} {s t : Store}

/-- The stores that asking about offers leads to, one offer after the other. -/
inductive Asked (scene : Scene) (s : Store) : Store → Prop
  | start : Asked scene s s
  | ask {t : Store} {e : Entity} {o : Offer} (h : Asked scene s t) (he : e ∈ scene.groups.values)
      (ho : o ∈ e.verbs) : Asked scene s (runOn (o.stands e.id) t).2

/-- However many offers have been asked about before, asking about one leaves the store as it was but
for the next mark, and gives the answer that it gives at first. -/
def ConditionsKeep (scene : Scene) (s : Store) : Prop :=
  ∀ t, scene.Asked s t → s.UpToMarks t ∧
    ∀ e ∈ scene.groups.values, ∀ o ∈ e.verbs,
      (runOn (o.stands e.id) t).1 = (runOn (o.stands e.id) s).1

theorem conditionsKeep_of_eq
    (h : ∀ e ∈ scene.groups.values, ∀ o ∈ e.verbs, (runOn (o.stands e.id) s).2 = s) :
    scene.ConditionsKeep s ∧ ∀ t, scene.Asked s t → t = s := by
  have hasked : ∀ t, scene.Asked s t → t = s := by
    intro t ht
    induction ht with
    | start => rfl
    | ask _ he ho ih =>
      rw [ih]
      exact h _ he _ ho
  refine ⟨fun t ht => ?_, hasked⟩
  cases hasked t ht
  exact ⟨s.upToMarks_withMark s.nextIdentity, fun _ _ _ _ => rfl⟩

/-- Conditions that at most advance the next mark, and whose answers do not depend on it, keep the
store. -/
theorem conditionsKeep_of_marks
    (h : ∀ e ∈ scene.groups.values, ∀ o ∈ e.verbs, ∀ n, s.nextIdentity ≤ n →
      (runOn (o.stands e.id) { s with nextIdentity := n }).1 = (runOn (o.stands e.id) s).1 ∧
        ∃ n', n ≤ n' ∧
          (runOn (o.stands e.id) { s with nextIdentity := n }).2 = { s with nextIdentity := n' }) :
    scene.ConditionsKeep s := by
  have hasked : ∀ t, scene.Asked s t →
      ∃ n, s.nextIdentity ≤ n ∧ t = { s with nextIdentity := n } := by
    intro t ht
    induction ht with
    | start => exact ⟨s.nextIdentity, Nat.le_refl _, rfl⟩
    | ask _ he ho ih =>
      obtain ⟨n, hn, rfl⟩ := ih
      obtain ⟨_, n', hn', ht⟩ := h _ he _ ho n hn
      exact ⟨n', Nat.le_trans hn hn', ht⟩
  intro t ht
  obtain ⟨n, hn, rfl⟩ := hasked t ht
  exact ⟨s.upToMarks_withMark n, fun e he o ho => (h e he o ho n hn).1⟩

theorem ConditionsKeep.offersHave (hs : scene.ConditionsKeep s) :
    scene.OffersHave fun _ m => Steady (scene.Asked s) m :=
  fun e he o ho => ⟨_, fun t ht => ⟨(hs t ht).2 e he o ho, ht.ask he ho⟩⟩

end Scene

end TextAdventure
