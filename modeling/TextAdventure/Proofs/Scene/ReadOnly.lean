import TextAdventure.Proofs.Eval.ReadOnly
import TextAdventure.Proofs.Scene.Enumeration

/-! # Searches that only read

Conditions that only read leave the store as it is, also in the scopes that they are asked in, and so do
the searches that ask them.
-/
namespace TextAdventure

open Eval

namespace Scene

variable {scene : Scene}

/-- The condition of every offer comes from an expression that only reads. -/
def ConditionsReadOnly (scene : Scene) : Prop :=
  ∀ e ∈ scene.groups.values, ∀ o ∈ e.verbs, ∀ condition ∈ o.condition,
    ∃ expr : Expr, expr.ReadOnly ∧ Code.ofExpr expr = .ok condition.code

/-- An offer is asked about in two scopes that are closed after its condition. The properties of the
entity are read there, and none are made. -/
theorem ConditionsReadOnly.offersHave (h : scene.ConditionsReadOnly) (s : Store) :
    scene.OffersHave fun _ m => Keeps s m := by
  intro e he o ho
  unfold Offer.stands
  cases hcondition : o.condition with
  | none => exact steady_pure true
  | some condition =>
    obtain ⟨expr, hread, hcode⟩ := h e he o ho condition hcondition
    apply Keeps.inScope
    apply Keeps.inScope
    exact (hread.keeps_resolve hcode _).map _

/-- Searching only reads where conditions only read. A script of an expression without assignments and
calls leaves every store as it is, in whatever scopes it is resolved and whether it succeeds or fails. If
all conditions in a scene are such scripts, the same holds of every search in the scene, and asking again
gives the same answer. -/
theorem searches_only_read :
    (∀ (e : Expr) (script : Script), e.ReadOnly → Code.ofExpr e = .ok script.code →
      ∀ s, (runOn script.resolve s).2 = s) ∧
    ∀ scene : Scene, scene.ConditionsReadOnly →
      Repeatable scene.commands ∧ ∀ words : List String, Repeatable (scene.next words) ∧
        Repeatable (scene.nextWords words) ∧ Repeatable (scene.exact words) := by
  constructor
  · intro e script hread hcode s
    exact keeps_iff.mp (hread.keeps_resolve hcode s)
  · intro scene hconditions
    have hkeep := hconditions.offersHave
    have hcommands : ∀ s, Keeps s scene.commands :=
      fun s => (compositional_steady _).commands (hkeep s)
    refine ⟨repeatable_of_keeps hcommands, ?_⟩
    intro words
    have hnext : ∀ s, Keeps s (scene.next words) :=
      fun s => (compositional_steady _).next (hkeep s) words
    have hnextWords : ∀ s, Keeps s (scene.nextWords words) :=
      fun s => (compositional_steady _).nextWords (hkeep s) words
    have hexact : ∀ s, Keeps s (scene.exact words) :=
      fun s => (compositional_steady _).exact (hkeep s) words
    exact ⟨repeatable_of_keeps hnext, repeatable_of_keeps hnextWords, repeatable_of_keeps hexact⟩

/-- Whether a gate is open and has the property that is named by `latch`. -/
def gateCondition : Expr :=
  .logical .and (.identifier "open" .default)
    (.element (.identifier "this" .default) (.identifier "latch" .default) .default) .default

def gate : Entity :=
  Entity.new "gate" |>.withVerb ((Offer.ofDeclaration "go").withCondition
    ⟨"open && this[latch]", .logical .and (.name "open") (.member (.name "this") (.name "latch"))⟩)

def gateway : Scene :=
  (Scene.new (VerbTable.ofVerbs [go])).add "location" gate

def openGate : Store :=
  (Store.new 0 Store.defaultMaxCalls).insertEntity "gate" [("open", .bool true), ("lifted", .bool true)]

def latchedGate : Store :=
  { openGate with globals := [("latch", .string "lifted")] }

/-- A search that fails in the condition of an offer leaves the store as it is, and so does one that
finds a command. -/
theorem searches_only_read_gateway :
    (runOn gateway.commands openGate).1 =
        .error ((Error.ofFault (.undefinedSymbol "latch")).inExpression "open && this[latch]") ∧
      (runOn gateway.commands openGate).2 = openGate ∧
      (runOn (gateway.exact ["go", "gate"]) latchedGate).1 =
        .ok (some ⟨[.verb go, .directObject "gate"]⟩) ∧
      (runOn (gateway.exact ["go", "gate"]) latchedGate).2 = latchedGate := by
  have hread : gateCondition.ReadOnly :=
    .logical (.identifier _ _) (.element (.identifier _ _) (.identifier _ _))
  have hconditions : gateway.ConditionsReadOnly := by
    intro e he o ho condition hcondition
    cases List.mem_singleton.mp he
    cases List.mem_singleton.mp ho
    cases hcondition
    exact ⟨gateCondition, hread, rfl⟩
  obtain ⟨hcommands, hwords⟩ := searches_only_read.2 gateway hconditions
  obtain ⟨_, _, hexact⟩ := hwords ["go", "gate"]
  exact ⟨rfl, (hcommands openGate).1, rfl, (hexact latchedGate).1⟩

end Scene

end TextAdventure
