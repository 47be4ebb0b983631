import TextAdventure.Action
import TextAdventure.Proofs.Eval.Faults

/-! # Compiling fails with errors of compiling

Reading an expression, compiling it, a pattern, a rule or an action fails with errors of compiling only,
in whatever layers and at whatever places they are reported.
-/
namespace TextAdventure

open Error (FailsAs failsAs_ok failsAs_error)

theorem Expr.failsAs_parse (source : String) : FailsAs true (Expr.parse source) := by
  unfold Expr.parse Expr.parseWithin
  split
  · exact failsAs_ok _
  · exact failsAs_error rfl

namespace Code

mutual

theorem failsAs_ofExpr : ∀ e : Expr, FailsAs true (ofExpr e)
  | .literal value _ => by
    rw [ofExpr]
    exact failsAs_ok _
  | .identifier n _ => by
    rw [ofExpr]
    exact failsAs_ok _
  | .array items _ => by
    rw [ofExpr]
    exact (failsAs_ofExprs items).bind fun cs => failsAs_ok _
  | .object entries _ => by
    rw [ofExpr]
    exact (failsAs_ofEntries entries).bind fun cs => failsAs_ok _
  | .unary op operand _ => by
    rw [ofExpr]
    exact (failsAs_ofExpr operand).bind fun c => failsAs_ok _
  | .binary op left right _ => by
    rw [ofExpr]
    exact (failsAs_ofExpr left).bind fun l => (failsAs_ofExpr right).bind fun r => failsAs_ok _
  | .logical op left right _ => by
    rw [ofExpr]
    exact (failsAs_ofExpr left).bind fun l => (failsAs_ofExpr right).bind fun r => failsAs_ok _
  | .conditional test consequent alternate _ => by
    rw [ofExpr]
    refine (failsAs_ofExpr test).bind fun t => (failsAs_ofExpr consequent).bind fun c => ?_
    exact (failsAs_ofExpr alternate).bind fun a => failsAs_ok _
  | .assign op target value _ => by
    rw [ofExpr]
    exact (failsAs_ofExpr target).bind fun t => (failsAs_ofExpr value).bind fun v => failsAs_ok _
  | .member container key _ => by
    rw [ofExpr]
    exact (failsAs_ofExpr container).bind fun c => failsAs_ok _
  | .element container key _ => by
    rw [ofExpr]
    exact (failsAs_ofExpr container).bind fun c => (failsAs_ofExpr key).bind fun k => failsAs_ok _
  | .call callee args _ => by
    rw [ofExpr]
    split
    · exact (failsAs_ofExprs args).bind fun cs => failsAs_ok _
    · exact (failsAs_ofExpr callee).bind fun f => (failsAs_ofExprs args).bind fun cs => failsAs_ok _
  | .sequence items _ => by
    rw [ofExpr]
    exact (failsAs_ofExprs items).bind fun cs => failsAs_ok _
  | .arrow .. => by
    rw [ofExpr]
    exact failsAs_error rfl

theorem failsAs_ofExprs : ∀ es : List Expr, FailsAs true (ofExprs es)
  | [] => by
    rw [ofExprs]
    exact failsAs_ok []
  | e :: es => by
    rw [ofExprs]
    exact (failsAs_ofExpr e).bind fun c => (failsAs_ofExprs es).bind fun cs => failsAs_ok _

theorem failsAs_ofEntries : ∀ entries : List (String × Expr), FailsAs true (ofEntries entries)
  | [] => by
    rw [ofEntries]
    exact failsAs_ok []
  | (key, e) :: es => by
    rw [ofEntries]
    exact (failsAs_ofExpr e).bind fun c => (failsAs_ofEntries es).bind fun cs => failsAs_ok _

end

end Code

theorem Script.failsAs_compile (source : String) : FailsAs true (Script.compile source) :=
  (Expr.failsAs_parse source).bind fun e => (Code.failsAs_ofExpr e).bind fun _ => failsAs_ok _

theorem Script.failsAs_ofFragment (source : String) (e : Expr) :
    FailsAs true (Script.ofFragment source e) :=
  (Code.failsAs_ofExpr e).bind fun _ => failsAs_ok _

theorem ScriptFunction.failsAs_compile (name : String) (params : List String) (source : String) :
    FailsAs true (ScriptFunction.compile name params source) := by
  have hbody := Script.failsAs_compile source
  unfold ScriptFunction.compile
  split
  · exact failsAs_ok _
  next e he => exact failsAs_error ((Error.keepsClass_atPath name e).trans (hbody e he))

namespace Pattern

theorem Term.failsAs_ofExpr (e : Expr) : FailsAs true (Term.ofExpr e) := by
  unfold Term.ofExpr
  split
  · exact failsAs_ok _
  · exact failsAs_ok _
  · exact failsAs_error rfl

theorem Application.failsAs_ofExpr (e : Expr) : FailsAs true (Application.ofExpr e) := by
  unfold Application.ofExpr
  split
  · refine (Term.failsAs_ofExpr _).bind fun head => ?_
    exact (FailsAs.mapM Term.failsAs_ofExpr _).bind fun args => failsAs_ok _
  · exact (Term.failsAs_ofExpr _).bind fun head => failsAs_ok _

theorem failsAs_ofExpr (e : Expr) : FailsAs true (ofExpr e) := by
  refine (FailsAs.mapM Term.failsAs_ofExpr _).bind fun args => ?_
  split
  · exact (Application.failsAs_ofExpr _).bind fun verb => failsAs_ok _
  · exact failsAs_error rfl
  · exact (Application.failsAs_ofExpr _).bind fun verb => failsAs_ok _

theorem failsAs_lookupVerb (verbs : VerbTable) (t : Term) : FailsAs true (lookupVerb verbs t) := by
  unfold lookupVerb
  split
  · exact failsAs_error rfl
  · split
    · exact failsAs_ok _
    · exact failsAs_error rfl

theorem failsAs_modifierMatchers (v : Verb) (kinds : List String) (ts : List Term) :
    FailsAs true (modifierMatchers v kinds ts) := by
  induction ts generalizing kinds with
  | nil =>
    rw [modifierMatchers]
    exact failsAs_ok []
  | cons t ts ih =>
    cases kinds with
    | nil => exact failsAs_error rfl
    | cons kind kinds =>
      rw [modifierMatchers]
      exact (ih kinds).bind fun ms => failsAs_ok _

theorem failsAs_prepositionClause (clause : Application) :
    FailsAs true (prepositionClause clause) := by
  unfold prepositionClause
  split
  · exact failsAs_error rfl
  · exact failsAs_ok _
  · exact failsAs_ok _
  · exact failsAs_error rfl

theorem failsAs_clauses (verbs : VerbTable) (p : Pattern) : FailsAs true (p.clauses verbs) := by
  refine (failsAs_lookupVerb verbs _).bind fun v => ?_
  refine (failsAs_modifierMatchers v _ _).bind fun ms => ?_
  cases p.clause with
  | none => exact failsAs_ok _
  | some clause =>
    exact ((failsAs_prepositionClause clause).map some).bind fun prepositions => failsAs_ok _

end Pattern

namespace Matcher

theorem PrepositionClause.failsAs_matcher (clause : PrepositionClause) :
    FailsAs true clause.matcher := by
  unfold PrepositionClause.matcher
  split
  · exact failsAs_ok _
  · exact failsAs_error rfl

namespace Clauses

theorem failsAs_prepositionMatchers (v : Verb) (clauses : Clauses) :
    FailsAs true (clauses.prepositionMatchers v) := by
  unfold prepositionMatchers
  split
  · exact (PrepositionClause.failsAs_matcher _).map _
  · exact failsAs_ok _

theorem failsAs_matcher (clauses : Clauses) : FailsAs true clauses.matcher := by
  unfold Clauses.matcher
  split
  · exact (clauses.failsAs_prepositionMatchers _).bind fun prepositions => failsAs_ok _
  · exact failsAs_error rfl

end Clauses

end Matcher

namespace Pattern

theorem failsAs_matcher (verbs : VerbTable) (e : Expr) : FailsAs true (matcher verbs e) := by
  refine (failsAs_ofExpr e).bind fun p => (failsAs_clauses verbs p).bind fun clauses => ?_
  exact clauses.failsAs_matcher

theorem failsAs_compile (verbs : VerbTable) (source : String) :
    FailsAs true (Pattern.compile verbs source) := by
  refine (Expr.failsAs_parse source).bind fun e => ?_
  exact (failsAs_matcher verbs e).mapError (Error.keepsClass_inExpression _)

end Pattern

namespace Rule

theorem failsAs_ofString (text : String) : FailsAs true (ofString text) := by
  unfold ofString
  split
  · exact failsAs_ok _
  · exact (Script.failsAs_compile text).map _

theorem Components.failsAs_freeSlot (key : String) (parts : Components) :
    FailsAs true (parts.freeSlot key) := by
  unfold Components.freeSlot
  split
  · exact failsAs_error rfl
  · split
    · exact failsAs_error rfl
    · exact failsAs_ok _

theorem Components.failsAs_rule (parts : Components) : FailsAs true parts.rule := by
  unfold Components.rule
  split
  · exact failsAs_ok _
  · split
    · exact failsAs_ok _
    · exact failsAs_error rfl

theorem failsAs_someItems (key : String) (rule : Rule) : FailsAs true (someItems key rule) := by
  unfold someItems
  split
  · exact failsAs_error rfl
  · exact failsAs_ok _

theorem failsAs_ofComponent (key path : String) (rule : Rule) :
    FailsAs true (ofComponent key path rule) := by
  unfold ofComponent
  split
  · exact failsAs_ok _
  · split
    · exact (failsAs_someItems key rule).map _
    · split
      · exact (failsAs_someItems key rule).map _
      · split
        · exact failsAs_ok _
        · exact failsAs_ok _

mutual

theorem failsAs_ofValue : ∀ (path : String) (v : Value), FailsAs true (ofValue path v)
  | path, .string text => by
    rw [ofValue]
    exact (failsAs_ofString text).reportAt path
  | path, .list values => by
    rw [ofValue]
    exact (failsAs_ofValues path 0 values).bind fun rules => failsAs_ok _
  | path, .map layout entries => by
    rw [ofValue]
    refine (failsAs_ofEntries path .empty entries).bind fun parts => ?_
    exact parts.failsAs_rule.reportAt path
  | path, .function f => by
    rw [ofValue]
    exact failsAs_ok _
  | path, .nil | path, .bool b | path, .int n | path, .float x | path, .entity id => by
    rw [ofValue]
    · exact failsAs_ok _
    all_goals simp

theorem failsAs_ofValues : ∀ (path : String) (i : Nat) (vs : List Value),
    FailsAs true (ofValues path i vs)
  | path, i, [] => by
    rw [ofValues]
    exact failsAs_ok []
  | path, i, v :: vs => by
    rw [ofValues]
    refine (failsAs_ofValue _ v).bind fun rule => ?_
    exact (failsAs_ofValues path (i + 1) vs).bind fun rules => failsAs_ok _

theorem failsAs_ofEntries : ∀ (path : String) (parts : Components) (entries : List (String × Value)),
    FailsAs true (ofEntries path parts entries)
  | path, parts, [] => by
    rw [ofEntries]
    exact failsAs_ok parts
  | path, parts, (key, v) :: rest => by
    rw [ofEntries]
    refine ((parts.failsAs_freeSlot key).reportAt path).bind fun slot => ?_
    refine (failsAs_ofValue _ v).bind fun rule => ?_
    refine ((failsAs_ofComponent key _ rule).reportAt path).bind fun rule => ?_
    exact failsAs_ofEntries path _ rest

end

end Rule

namespace Action

theorem failsAs_ofArrow (verbs : VerbTable) (phase : Phase) (path source : String) (e : Expr) :
    FailsAs true (ofArrow verbs phase path source e) := by
  unfold ofArrow
  split
  next pattern body span =>
    have hmatcher : FailsAs true (patternMatcher verbs source pattern) :=
      (Pattern.failsAs_matcher verbs pattern).mapError (Error.keepsClass_inExpression _)
    refine hmatcher.bind fun matcher => ?_
    exact (Script.failsAs_ofFragment source body).bind fun script => failsAs_ok _
  next => exact failsAs_error rfl

theorem failsAs_ofSource (verbs : VerbTable) (phase : Phase) (path source : String) :
    FailsAs true (ofSource verbs phase path source) := by
  refine FailsAs.reportAt ?_ path
  exact (Expr.failsAs_parse source).bind fun e => failsAs_ofArrow verbs phase path source e

theorem failsAs_ofRule (verbs : VerbTable) (phase : Phase) (path pattern : String) (rule : Value) :
    FailsAs true (ofRule verbs phase path pattern rule) := by
  refine ((Pattern.failsAs_compile verbs pattern).reportAt path).bind fun matcher => ?_
  exact (Rule.failsAs_ofValue path rule).bind fun rule => failsAs_ok _

end Action

end TextAdventure
