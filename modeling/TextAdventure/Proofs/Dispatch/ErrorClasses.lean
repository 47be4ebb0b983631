import TextAdventure.Proofs.Dispatch.Invariant
import TextAdventure.Proofs.Rule.CompileErrors
import TextAdventure.Proofs.Scene.Invariant

/-! # Errors of compiling and of execution never mix

Compiling fails with errors of compiling only. Whatever runs fails with errors of execution only: steps
do, and so do calls, since a call that is refused is an error of execution too.
-/
namespace TextAdventure

open Error (FailsAs failsAs_ok failsAs_error)

namespace Eval

variable {α β : Type}

/-- From whatever store it is run, the computation fails with errors of execution only. -/
def FailsRunning (m : Eval α) : Prop :=
  ∀ s, FailsAs false (runOn m s).1

namespace FailsRunning

theorem bind {m : Eval α} {k : α → Eval β} (hm : FailsRunning m) (hk : ∀ a, FailsRunning (k a)) :
    FailsRunning (m >>= k) := by
  intro s
  have hs := hm s
  rw [runOn_bind]
  cases hr : runOn m s with
  | mk r t =>
    rw [hr] at hs
    cases r with
    | error e => exact failsAs_error (hs e rfl)
    | ok a => exact hk a t

theorem mapError {f : Error → Error} (hf : Error.KeepsClass f) {m : Eval α} (hm : FailsRunning m) :
    FailsRunning (mapError f m) := by
  intro s
  rw [runOn_mapError]
  exact (hm s).mapError hf

theorem inScope (scope : Scope) {m : Eval α} (hm : FailsRunning m) :
    FailsRunning (inScope scope m) := by
  intro s
  rw [runOn_inScope]
  exact hm _

theorem asCall {m : Eval α} (hm : FailsRunning m) : FailsRunning (asCall m) := by
  intro s
  rw [runOn_asCall]
  split
  · exact hm _
  · exact failsAs_error rfl

theorem change {f : Store → Except Error (α × Store)} (hf : ∀ s, FailsAs false (f s)) :
    FailsRunning (change f) := by
  intro s
  have hs := hf s
  rw [runOn_change]
  cases hr : f s with
  | error e => exact failsAs_error (hs e hr)
  | ok r => exact failsAs_ok r.1

theorem withBuffer {m : Eval α} {k : α → List String → Eval β} (hm : FailsRunning m)
    (hk : ∀ a lines, FailsRunning (k a lines)) : FailsRunning (withBuffer m k) := by
  intro s
  have hs := hm s.pushBuffer
  rw [Eval.withBuffer, runOn_bind, runOn_buffered]
  cases hr : (runOn m s.pushBuffer).1 with
  | error e => exact failsAs_error (hs e hr)
  | ok a => exact hk a _ _

end FailsRunning

theorem failsRunning_step {m : Eval α} (h : IsStep m) : FailsRunning m := by
  cases h with
  | pure a => exact fun s => failsAs_ok a
  | throw h => exact fun s => failsAs_error h
  | get => exact fun s => failsAs_ok s
  | write lines => exact fun s => failsAs_ok ()
  | randomIndex n => exact fun s => failsAs_ok _
  | randomUnit => exact fun s => failsAs_ok _
  | holdAll vs => exact fun s => failsAs_ok _
  | storeName op root keys new =>
    refine FailsRunning.change fun s => (Code.raises_combine op _ new).failsAs.bind fun stored => ?_
    exact (Store.raises_setKeys _ _ _ _).failsAs.bind fun t => failsAs_ok _
  | storeInto op target keys new =>
    refine FailsRunning.change fun s => (Code.raises_combine op _ new).failsAs.bind fun stored => ?_
    exact (Store.raises_assign _ _ _ _).failsAs.bind fun t => failsAs_ok _
  | setProgress key n =>
    exact FailsRunning.change fun s => (s.raises_setKeys _ _ _).failsAs.bind fun t => failsAs_ok _

theorem closed_failsRunning {call : Caller} (hcall : ∀ f args, FailsRunning (call f args)) :
    Closed fun _ m => FailsRunning (m call) where
  step := failsRunning_step
  call := hcall
  bind := FailsRunning.bind
  mapError hf h := FailsRunning.mapError hf h
  inScope scope h := FailsRunning.inScope scope h

theorem failsRunning_callWithin (calls : Nat) (f : Function) (args : List Value) :
    FailsRunning (Function.callWithin calls f args) := by
  induction calls generalizing f args with
  | zero => exact fun s => failsAs_error rfl
  | succ calls ih =>
    rw [Function.callWithin_succ]
    exact ((closed_failsRunning ih).body f args).asCall

theorem runClosed_failsRunning : RunClosed fun _ m => FailsRunning m :=
  closed_failsRunning fun f args s => failsRunning_callWithin _ f args s

end Eval

/-- Reading and compiling expressions, functions, patterns, rules and actions fails with errors of
compiling only; scripts, rules, conditions, actions, searches and dispatches fail with errors of execution
only. -/
theorem errors_never_mix :
    ((∀ source, FailsAs true (Expr.parse source)) ∧
      (∀ source, FailsAs true (Script.compile source)) ∧
      (∀ name params source, FailsAs true (ScriptFunction.compile name params source)) ∧
      (∀ verbs source, FailsAs true (Pattern.compile verbs source)) ∧
      (∀ path rule, FailsAs true (Rule.ofValue path rule)) ∧
      (∀ verbs phase path source, FailsAs true (Action.ofSource verbs phase path source)) ∧
      ∀ verbs phase path pattern rule,
        FailsAs true (Action.ofRule verbs phase path pattern rule)) ∧
    (∀ script : Script, Eval.FailsRunning script.resolve) ∧
    (∀ rule : Rule, Eval.FailsRunning rule.resolve) ∧
    (∀ (id : String) (o : Offer), Eval.FailsRunning (o.stands id)) ∧
    (∀ (owner : String) (c : Command) (a : Action), Eval.FailsRunning (a.perform owner c)) ∧
    (∀ scene : Scene, Eval.FailsRunning scene.commands ∧
      ∀ words : List String, Eval.FailsRunning (scene.next words) ∧
        Eval.FailsRunning (scene.nextWords words) ∧ Eval.FailsRunning (scene.exact words)) ∧
    ∀ (c : Command) (around : Surroundings) (r : Registry),
      Eval.FailsRunning (r.dispatch c around) := by
  have hQ := Eval.runClosed_failsRunning
  refine ⟨⟨Expr.failsAs_parse, Script.failsAs_compile, ScriptFunction.failsAs_compile,
    Pattern.failsAs_compile, Rule.failsAs_ofValue, Action.failsAs_ofSource,
    Action.failsAs_ofRule⟩, hQ.resolveScript, hQ.resolveRule, hQ.stands, hQ.perform, ?_, ?_⟩
  · intro scene
    refine ⟨hQ.commands scene, fun words => ?_⟩
    exact ⟨hQ.next scene words, hQ.nextWords scene words, hQ.exact scene words⟩
  · intro c around r
    exact hQ.dispatch Eval.FailsRunning.withBuffer c around r

/-- Both classes have errors: a rule without components does not compile, and a name that nothing defines
cannot be read. -/
theorem errors_never_mix_empty :
    (∃ e, Rule.ofValue "room" (.map .empty []) = .error e ∧ e.isCompileError = true) ∧
    ∃ e, (Eval.runOn (Script.resolve ⟨"lamp", .name "lamp"⟩) (Store.new 0 0)).1 = .error e ∧
      e.isCompileError = false := by
  obtain ⟨⟨-, -, -, -, hrule, -⟩, hscript, -⟩ := errors_never_mix
  refine ⟨⟨_, rfl, hrule "room" (.map .empty []) _ rfl⟩, _, rfl, ?_⟩
  exact hscript ⟨"lamp", .name "lamp"⟩ (Store.new 0 0) _ rfl

end TextAdventure
