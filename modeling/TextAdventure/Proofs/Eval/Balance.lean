import TextAdventure.Proofs.Eval.Invariant
import TextAdventure.Proofs.Scene.Invariant
import TextAdventure.Proofs.Store.Resolution

/-! # Evaluation is balanced

Every scope that an evaluation opens is closed and every call that it enters is left, also when an error
cuts it short. What it writes is added to the innermost output buffer, and the buffers around that one
stay as they are.
-/
namespace TextAdventure

/-- What a frame reads and writes: bindings of its own or the properties of an entity. -/
inductive FrameKind where
  | own
  | entity (id : String)
  deriving DecidableEq, Repr

structure Frame where
  /-- The position of the frame that this one is opened in. -/
  parent : Option Nat
  kind : FrameKind
  deriving DecidableEq, Repr

def Scope.kind : Scope → FrameKind
  | .block _ => .own
  | .entity id => .entity id

namespace Store

variable {s t u : Store}

/-- The kinds of the open scopes, innermost first. -/
def kinds (s : Store) : List FrameKind :=
  s.scopes.map Scope.kind

/-- The globals and the open scopes on top of them, each opened in the frame before it. -/
def frames (s : Store) : List Frame :=
  ⟨none, .own⟩ :: s.kinds.reverse.zipIdx.map fun frame => ⟨some frame.2, frame.1⟩

theorem frames_eq_iff : t.frames = s.frames ↔ t.kinds = s.kinds := by
  constructor
  · intro h
    have hkinds := congrArg (fun frames => frames.tail.map Frame.kind) h
    simpa [frames, Function.comp_def, List.zipIdx_map_fst] using hkinds
  · intro h
    rw [frames, frames, h]

theorem kinds_closeScope_of_openScope {scope : Scope} (h : t.kinds = (s.openScope scope).kinds) :
    t.closeScope.kinds = s.kinds := by
  have htail := congrArg List.tail h
  simpa [kinds, openScope, closeScope, List.map_tail] using htail

theorem kinds_setProperty (id key : String) (v : Value) (s : Store) :
    (s.setProperty id key v).kinds = s.kinds :=
  rfl

theorem kinds_bindAt (depth : Nat) (name : String) (v : Value) (s : Store) :
    (s.bindAt depth name v).kinds = s.kinds := by
  unfold bindAt
  split
  next bindings h =>
    have hkind : s.kinds[depth]? = some .own := by simp [kinds, h, Scope.kind]
    simp only [kinds, List.map_set, Scope.kind]
    obtain ⟨hlt, hget⟩ := List.getElem?_eq_some_iff.mp hkind
    rw [← hget]
    exact List.set_getElem_self hlt
  next id h => exact kinds_setProperty id name v s
  next h => rfl

/-- The store differs from an earlier one in nothing that has to be undone: the frames, the active calls
and the outer output buffers are the same, and the innermost buffer has at most more lines. -/
structure Balanced (s t : Store) : Prop where
  frames : t.frames = s.frames
  activeCalls : t.activeCalls = s.activeCalls
  outerLines : t.outerLines = s.outerLines
  lines : ∃ written, t.lines = s.lines ++ written

theorem Balanced.of_kinds (hk : t.kinds = s.kinds) (hc : t.activeCalls = s.activeCalls)
    (ho : t.outerLines = s.outerLines) (hl : t.lines = s.lines) : Balanced s t :=
  ⟨frames_eq_iff.mpr hk, hc, ho, [], by rw [hl, List.append_nil]⟩

theorem Balanced.refl (s : Store) : Balanced s s :=
  .of_kinds rfl rfl rfl rfl

theorem Balanced.trans (hst : Balanced s t) (htu : Balanced t u) : Balanced s u := by
  obtain ⟨first, hfirst⟩ := hst.lines
  obtain ⟨second, hsecond⟩ := htu.lines
  refine ⟨htu.frames.trans hst.frames, htu.activeCalls.trans hst.activeCalls,
    htu.outerLines.trans hst.outerLines, first ++ second, ?_⟩
  rw [hsecond, hfirst, List.append_assoc]

theorem Balanced.closeScope {scope : Scope} (h : Balanced (s.openScope scope) t) :
    Balanced s t.closeScope := by
  have hkinds := kinds_closeScope_of_openScope (frames_eq_iff.mp h.frames)
  exact ⟨frames_eq_iff.mpr hkinds, h.activeCalls, h.outerLines, h.lines⟩

theorem Balanced.exitCall (h : Balanced { s with activeCalls := s.activeCalls + 1 } t) :
    Balanced s { t with activeCalls := t.activeCalls - 1 } := by
  have hcalls : t.activeCalls - 1 = s.activeCalls := by rw [h.activeCalls, Nat.add_sub_cancel]
  exact ⟨h.frames, hcalls, h.outerLines, h.lines⟩

theorem balanced_bindAt (depth : Nat) (name : String) (v : Value) (s : Store) :
    Balanced s (s.bindAt depth name v) := by
  have hkinds := kinds_bindAt depth name v s
  unfold bindAt at hkinds ⊢
  split at hkinds
  next bindings h => exact .of_kinds hkinds rfl rfl rfl
  next id h => exact .of_kinds hkinds rfl rfl rfl
  next h => exact .of_kinds hkinds rfl rfl rfl

theorem balanced_of_rebuild {target v w : Value} {key : String}
    (h : s.rebuild target key v = some (w, t)) : Balanced s t := by
  cases target with
  | list items =>
    obtain ⟨i, _, he⟩ := Option.map_eq_some_iff.mp h
    cases he
    exact .refl s
  | entity id =>
    cases h
    exact .of_kinds (kinds_setProperty id key v s) rfl rfl rfl
  | map layout entries =>
    cases h
    exact .of_kinds rfl rfl rfl rfl
  | nil =>
    cases h
    exact .of_kinds rfl rfl rfl rfl
  | _ => cases h

theorem balanced_of_assign {target value v : Value} {keys : List String}
    (h : s.assign target keys value = .ok (v, t)) : Balanced s t := by
  induction keys generalizing target v t with
  | nil =>
    cases h
    exact .refl s
  | cons key keys ih =>
    obtain ⟨updated, t', hd, hr⟩ := assign_cons_eq_ok_iff.1 h
    exact (ih hd).trans (balanced_of_rebuild hr)

theorem balanced_of_setKeys {name : String} {keys : List String} {value : Value}
    (h : s.setKeys name keys value = .ok t) : Balanced s t := by
  cases keys with
  | nil =>
    cases h
    exact balanced_bindAt _ _ _ s
  | cons key keys =>
    obtain ⟨⟨updated, t'⟩, ha, hb⟩ := Error.bind_eq_ok_iff.mp h
    cases hb
    exact (balanced_of_assign ha).trans (balanced_bindAt _ _ _ t')

theorem balanced_invariant : Eval.Invariant Balanced where
  refl := Balanced.refl
  trans := Balanced.trans
  writeLines lines _ := ⟨rfl, rfl, rfl, lines, rfl⟩
  draw _ _ := .of_kinds rfl rfl rfl rfl
  mark _ _ := .of_kinds rfl rfl rfl rfl
  assign := balanced_of_assign
  setKeys := balanced_of_setKeys
  closeScope _ := Balanced.closeScope
  exitCall _ := Balanced.exitCall

/-- Whatever is evaluated, searched or performed, and whether it succeeds or fails, the frames with their
parents and kinds, the active calls and the outer output buffers are afterwards what they were before,
and the innermost output buffer has gained lines at its end. -/
theorem balanced_runs (s : Store) :
    (∀ script : Script, Balanced s (Eval.runOn script.resolve s).2) ∧
    (∀ rule : Rule, Balanced s (Eval.runOn rule.resolve s).2) ∧
    (∀ (owner : String) (c : Command) (a : Action),
      Balanced s (Eval.runOn (a.perform owner c) s).2) ∧
    (∀ (verb : String) (preposition : Option String) (e : Entity),
      Balanced s (Eval.runOn (e.offers verb preposition) s).2) ∧
    ∀ scene : Scene, Balanced s (Eval.runOn scene.commands s).2 ∧
      ∀ words : List String, Balanced s (Eval.runOn (scene.next words) s).2 ∧
        Balanced s (Eval.runOn (scene.nextWords words) s).2 ∧
        Balanced s (Eval.runOn (scene.exact words) s).2 := by
  have hR := balanced_invariant
  refine ⟨fun script => hR.resolveScript script s, fun rule => hR.resolveRule rule s,
    fun owner c a => hR.perform owner c a s,
    fun verb preposition e => hR.offers verb preposition e s, fun scene => ?_⟩
  refine ⟨hR.commands scene s, fun words => ?_⟩
  exact ⟨hR.next scene words s, hR.nextWords scene words s, hR.exact scene words s⟩

end Store

end TextAdventure
