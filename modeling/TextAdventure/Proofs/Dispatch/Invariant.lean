import TextAdventure.Dispatch
import TextAdventure.Proofs.Eval.Invariant

/-! # What every dispatch keeps

Besides evaluating, a dispatch runs computations with output buffers of their own and goes on with their
results. So it has every closed property that a computation with a buffer of its own gets from the
computation and from what follows it.
-/
namespace TextAdventure

/-- Runs a computation with a fresh output buffer and goes on with its result and the lines it wrote. -/
def Eval.withBuffer {α β : Type} (m : Eval α) (k : α → List String → Eval β) : Eval β := do
  let (result, lines) ← Eval.buffered m
  k (← Eval.ofExcept result) lines

namespace Registry

theorem runMain_eq (owners : List String) (owner : String) (a : Action) (c : Command)
    (r : Registry) :
    r.runMain owners owner a c = Eval.withBuffer (a.perform owner c) fun result mainLines =>
      if result.isHandled then
        Eval.withBuffer (r.runAfter owners c) fun handled afterLines => do
          if handled then
            Eval.write afterLines
            return some .after
          else
            Eval.write (mainLines ++ afterLines)
            return some .main
      else do
        Eval.write mainLines
        return none :=
  rfl

theorem dispatch_eq (c : Command) (around : Surroundings) (r : Registry) :
    r.dispatch c around =
      Eval.withBuffer (do
          let phase ← r.runPhases (around.owners c) c
          if phase.isSome && !c.verb?.any Verb.isInstant then r.runEveryTurn
          return phase)
        fun phase output => return ⟨phase, c.verb?.any Verb.isInstant, output⟩ :=
  rfl

end Registry

namespace Eval

namespace RunClosed

variable {Q : (α : Type) → Eval α → Prop} (hQ : RunClosed Q)
include hQ

theorem performBest (phase : Phase) (c : Command) (r : Registry) (owner : String) :
    Q Bool (r.performBest phase c owner) := by
  unfold Registry.performBest
  split
  · exact hQ.map _ (hQ.perform owner c _)
  · exact hQ.pure false

theorem runBefore (owners : List String) (c : Command) (r : Registry) :
    Q Bool (r.runBefore owners c) :=
  hQ.compositional.anyM fun owner _ => hQ.performBest .before c r owner

theorem runAfter (owners : List String) (c : Command) (r : Registry) :
    Q Bool (r.runAfter owners c) :=
  hQ.bind (hQ.compositional.mapM fun owner _ => hQ.performBest .after c r owner) fun _ => hQ.pure _

theorem runEveryTurn (r : Registry) : Q Unit r.runEveryTurn := by
  unfold Registry.runEveryTurn
  induction r.everyTurn with
  | nil => exact hQ.pure _
  | cons entry entries ih =>
    obtain ⟨path, rule⟩ := entry
    rw [List.forM]
    refine hQ.bind ?_ fun _ => ih
    exact hQ.mapError (Error.keepsClass_inAction _ _) (hQ.map _ (hQ.resolveRule rule))

variable (hB : ∀ {α β : Type} {m : Eval α} {k : α → List String → Eval β}, Q α m →
  (∀ a lines, Q β (k a lines)) → Q β (withBuffer m k))
include hB

theorem runMain (owners : List String) (owner : String) (a : Action) (c : Command) (r : Registry) :
    Q (Option Phase) (r.runMain owners owner a c) := by
  rw [Registry.runMain_eq]
  refine hB (hQ.perform owner c a) fun result mainLines => ?_
  split
  · refine hB (hQ.runAfter owners c r) fun handled afterLines => ?_
    split
    · exact hQ.bind (hQ.write _) fun _ => hQ.pure _
    · exact hQ.bind (hQ.write _) fun _ => hQ.pure _
  · exact hQ.bind (hQ.write _) fun _ => hQ.pure _

theorem runPhases (owners : List String) (c : Command) (r : Registry) :
    Q (Option Phase) (r.runPhases owners c) := by
  refine hQ.bind (hQ.runBefore owners c r) fun handled => ?_
  split
  · exact hQ.pure _
  · split
    · exact hQ.runMain hB owners _ _ c r
    · exact hQ.pure none

theorem dispatch (c : Command) (around : Surroundings) (r : Registry) :
    Q Outcome (r.dispatch c around) := by
  rw [Registry.dispatch_eq]
  refine hB (hQ.bind (hQ.runPhases hB _ c r) fun phase => ?_) fun phase output => hQ.pure _
  dsimp only
  split
  · exact hQ.bind (hQ.runEveryTurn r) fun _ => hQ.pure phase
  · exact hQ.pure phase

end RunClosed

namespace Invariant

variable {R : Store → Store → Prop} (hR : Invariant R)
include hR

theorem runEveryTurn (r : Registry) : Respects R r.runEveryTurn :=
  hR.runClosed.runEveryTurn r

theorem runPhases (hB : ∀ {α : Type} {m : Eval α}, Respects R m → Respects R (buffered m))
    (owners : List String) (c : Command) (r : Registry) : Respects R (r.runPhases owners c) := by
  apply hR.runClosed.runPhases
  intro α β m k hm hk
  exact hR.bind (hB hm) fun written => hR.bind (hR.ofExcept _) fun a => hk a _

end Invariant

end Eval

end TextAdventure
