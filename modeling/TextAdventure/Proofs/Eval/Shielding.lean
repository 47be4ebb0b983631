import TextAdventure.Proofs.Eval.Invariant
import TextAdventure.Proofs.Store.Shadowing

/-! # Nearer scopes protect outer ones

Whatever is evaluated removes nothing from the store and leaves the local bindings of a name alone in
the frames further out than one that defines the name. A scope that is opened for a computation defines
names too, so it protects the frames around it: the scope of a call its parameters, and the scopes of an
action what its pattern captured.
-/
namespace TextAdventure

namespace Eval

open Store (Shields Protects)

variable {α : Type} {name : String}

theorem shields_invariant : Invariant Shields where
  refl := Shields.refl
  trans := Shields.trans
  writeLines _ _ := .of_same rfl rfl rfl
  draw _ _ := .of_same rfl rfl rfl
  mark _ _ := .of_same rfl rfl rfl
  assign := Store.shields_of_assign
  setKeys := Store.shields_of_setKeys
  closeScope _ := Shields.closeScope
  exitCall {s _} _ h := by
    have henter : Shields s { s with activeCalls := s.activeCalls + 1 } := .of_same rfl rfl rfl
    exact (henter.trans h).trans (.of_same rfl rfl rfl)

theorem protects_inScope (scope : Scope) {m : Eval α} (hm : Respects (Protects name) m) :
    Respects (Protects name) (inScope scope m) := by
  intro s
  rw [runOn_inScope]
  exact (hm (s.openScope scope)).closeScope

theorem protects_inScope_block {bindings : Bindings} (hb : (Dictionary.get? name bindings).isSome)
    {m : Eval α} (hm : Respects Shields m) :
    Respects (Protects name) (inScope (.block bindings) m) := by
  intro s
  rw [runOn_inScope]
  exact (hm (s.openScope (.block bindings))).protects hb

theorem isSome_get?_bindings {g : ScriptFunction} (h : name ∈ "arguments" :: g.params)
    (args : List Value) : (Dictionary.get? name (g.bindings args)).isSome := by
  rw [ScriptFunction.bindings, Dictionary.get?_insert]
  split
  next => rfl
  next hne =>
    have hparam : name ∈ g.params := (List.mem_cons.mp h).resolve_left hne
    apply Dictionary.isSome_get?_ofList
    rw [Dictionary.keys, List.map_map]
    have hfst : g.params.zipIdx.map Prod.fst = g.params := List.zipIdx_map_fst 0 g.params
    rw [← hfst] at hparam
    exact hparam

theorem protects_asCall {m : Eval α} (hm : Respects (Protects name) m) :
    Respects (Protects name) (asCall m) := by
  intro s
  rw [runOn_asCall]
  split
  · have henter : Protects name s { s with activeCalls := s.activeCalls + 1 } :=
      .of_same rfl rfl rfl
    exact (henter.trans (hm _)).trans (.of_same rfl rfl rfl)
  · exact .refl name s

theorem protects_runWith {call : Caller} (hcall : ∀ f args, Respects Shields (call f args))
    {g : ScriptFunction} (h : name ∈ "arguments" :: g.params) (args : List Value) :
    Respects (Protects name) (g.runWith call args) := by
  intro s
  have hbody := Invariant.map Resolved.get ((shields_invariant.closed hcall).evalWith g.body)
  have hscope := protects_inScope_block (isSome_get?_bindings h (s.holdAll args).1) hbody
  have hhold : Protects name s (s.holdAll args).2 := .of_same rfl rfl rfl
  rw [ScriptFunction.runWith, runOn_bind, runOn_modifyGet]
  exact hhold.trans (hscope (s.holdAll args).2)

theorem protects_call {f : Function} {g : ScriptFunction} (hf : f.callable = .script g)
    (h : name ∈ "arguments" :: g.params) (args : List Value) :
    Respects (Protects name) (Function.call f args) := by
  intro s
  have hrun : runOn (Function.call f args) s =
      runOn (Function.callWithin (s.maxCalls - s.activeCalls) f args) s := rfl
  rw [hrun]
  cases s.maxCalls - s.activeCalls with
  | zero => exact .refl name s
  | succ calls =>
    simp only [Function.callWithin, hf]
    exact protects_asCall (protects_runWith (shields_invariant.callWithin calls) h args) s

theorem protects_perform {c : Command} {a : Action} {owner : String} {hit : Hit}
    (ha : a.matcher c owner = some hit)
    (h : name = "this" ∨ (Dictionary.get? name hit.captures).isSome) :
    Respects (Protects name) (a.perform owner c) := by
  have hbody := shields_invariant.resolveRule a.body
  have hperform : Respects (Protects name)
      (Action.inScopes owner hit.captures a.body.resolve) := by
    intro s
    rw [Action.inScopes, runOn_bind, runOn_get]
    refine protects_inScope _ ?_ s
    -- the scope that defines the name protects it, and the scopes around that one only pass it on
    rcases h with rfl | h
    · refine protects_inScope _ (protects_inScope_block rfl ?_)
      split
      · exact shields_invariant.inScope _ hbody
      · exact hbody
    · refine protects_inScope_block h (shields_invariant.inScope _ ?_)
      split
      · exact shields_invariant.inScope _ hbody
      · exact hbody
  rw [Action.perform, ha]
  exact Invariant.mapError _ hperform

end Eval

namespace Store

open Eval (runOn)

/-- Scripts and rules, whether they succeed or fail, remove nothing, keep every defined name defined, and
leave the local bindings of a name alone in the frames further out than one that defined it. A call
leaves all local bindings alone that are named like a parameter or `arguments`, and an action those that
are named like a capture or `this`. -/
theorem nearer_scopes_protect (s : Store) :
    (∀ script : Script, Shields s (runOn script.resolve s).2) ∧
    (∀ rule : Rule, Shields s (runOn rule.resolve s).2) ∧
    (∀ t, Shields s t → ∀ name, s.isDefined name = true → t.isDefined name = true) ∧
    (∀ (f : Function) (g : ScriptFunction) (args : List Value), f.callable = .script g →
      ∀ name ∈ "arguments" :: g.params, Protects name s (runOn (Function.call f args) s).2) ∧
    ∀ (owner : String) (c : Command) (a : Action) (hit : Hit), a.matcher c owner = some hit →
      ∀ name, name = "this" ∨ (Dictionary.get? name hit.captures).isSome →
        Protects name s (runOn (a.perform owner c) s).2 := by
  have hR := Eval.shields_invariant
  refine ⟨fun script => hR.resolveScript script s, fun rule => hR.resolveRule rule s, ?_, ?_, ?_⟩
  · intro t ht name hname
    exact ht.isDefined hname
  · intro f g args hf name hname
    exact Eval.protects_call hf hname args s
  · intro owner c a hit ha name hname
    exact Eval.protects_perform ha hname s

/-- A global `x`, and a function that writes `x` and has a parameter of that name. -/
def shadowedGlobal : Store :=
  { new 0 defaultMaxCalls with globals := [("x", .int 1)] }

def writeX : Script :=
  ⟨"x = 2", .assignName .set "x" [] (.constant (.int 2))⟩

def setsParameter : Function :=
  ⟨0, .script ⟨"set", ["x"], writeX⟩⟩

/-- An action that captures `x` and writes it. -/
def setsCapture : Action :=
  ⟨.main, "set", fun _ _ => some ⟨0, [("x", .int 3)]⟩, .script writeX⟩

theorem nearer_scopes_protect_global :
    (runOn (Function.call setsParameter [.int 3]) shadowedGlobal).2.bindingAt 0 "x" =
      some (.int 1) ∧
    (runOn (setsCapture.perform "player" ⟨[]⟩) shadowedGlobal).2.bindingAt 0 "x" =
      some (.int 1) ∧
    (runOn writeX.resolve shadowedGlobal).2.bindingAt 0 "x" = some (.int 2) := by
  have hx : shadowedGlobal.bindingAt 0 "x" = some (.int 1) := rfl
  have hlocal : shadowedGlobal.IsLocal 0 := by decide
  obtain ⟨-, -, -, hcall, haction⟩ := nearer_scopes_protect shadowedGlobal
  refine ⟨?_, ?_, rfl⟩
  · have hprotects := hcall setsParameter ⟨"set", ["x"], writeX⟩ [.int 3] rfl "x" (by decide)
    exact (hprotects.bindingAt_eq 0 hlocal).trans hx
  · have hprotects := haction "player" ⟨[]⟩ setsCapture ⟨0, [("x", .int 3)]⟩ rfl "x" (.inr rfl)
    exact (hprotects.bindingAt_eq 0 hlocal).trans hx

end Store

end TextAdventure
