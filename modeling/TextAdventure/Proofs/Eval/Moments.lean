import TextAdventure.Proofs.Eval.Limit
import TextAdventure.Proofs.Eval.Shielding

/-! # Moments of a run

A run meets computations on its way, also in the bodies of the functions that it calls. Where it meets one,
all scopes that were open when it started are still open. On top of them there are at most scopes of calls,
which have bindings of their own, and a scope that defined a name defines it still.
-/
namespace TextAdventure

namespace Store

variable {s t u : Store}

/-- The scopes of a store are open in another one, which has nothing on top of them but scopes with
bindings of their own. What they defined they define still. -/
def Nested (s t : Store) : Prop :=
  ∃ depth, t.kinds = List.replicate depth .own ++ s.kinds ∧
    ∀ i name, (s.bindingAt i name).isSome → (t.bindingAt (depth + i) name).isSome

theorem Nested.refl (s : Store) : Nested s s :=
  ⟨0, rfl, fun i name h => by rwa [Nat.zero_add]⟩

theorem Nested.of_grows (hsu : Grows s u) (hut : Nested u t) : Nested s t := by
  obtain ⟨depth, hkinds, hbound⟩ := hut
  refine ⟨depth, hsu.kinds ▸ hkinds, fun i name h => hbound i name (hsu.bindingAt h)⟩

theorem Nested.grows (hst : Nested s t) (htu : Grows t u) : Nested s u := by
  obtain ⟨depth, hkinds, hbound⟩ := hst
  exact ⟨depth, htu.kinds.trans hkinds, fun i name h => htu.bindingAt (hbound i name h)⟩

theorem Nested.of_openScope {bindings : Bindings} (h : Nested (s.openScope (.block bindings)) t) :
    Nested s t := by
  obtain ⟨depth, hkinds, hbound⟩ := h
  refine ⟨depth + 1, ?_, fun i name hi => ?_⟩
  · rw [hkinds, List.replicate_succ', List.append_assoc]
    rfl
  · rw [Nat.add_right_comm]
    apply hbound (i + 1)
    rwa [bindingAt_openScope]

end Store

namespace Eval

open Store (Nested)

/-- The run of a computation from a store meets another computation in some store. The scopes that it
opens on the way are those of the functions that it calls. -/
inductive Meets : {α β : Type} → (Caller → Eval α) → Store → (Caller → Eval β) → Store → Prop where
  | here {α : Type} (m : Caller → Eval α) (s : Store) : Meets m s m s
  | first {α β γ : Type} {m : Caller → Eval α} (k : α → Caller → Eval β) {p : Caller → Eval γ}
    {s t : Store} :
    Meets m s p t → Meets (fun call => m call >>= fun a => k a call) s p t
  | next {α β γ : Type} {m : Caller → Eval α} {k : α → Caller → Eval β} {p : Caller → Eval γ}
    {s t u : Store} {passed : List Store} {a : α} :
    Runs m s passed (.ok a) u → Meets (k a) u p t →
      Meets (fun call => m call >>= fun a => k a call) s p t
  | mapError {α β : Type} {m : Caller → Eval α} (f : Error → Error) {p : Caller → Eval β}
    {s t : Store} :
    Meets m s p t → Meets (fun call => mapError f (m call)) s p t
  | inScope {α β : Type} {m : Caller → Eval α} (bindings : Bindings) {p : Caller → Eval β}
    {s t : Store} :
    Meets m (s.openScope (.block bindings)) p t →
      Meets (fun call => inScope (.block bindings) (m call)) s p t
  | entered {β : Type} {f : Function} {args : List Value} {p : Caller → Eval β} {s t : Store} :
    s.activeCalls < s.maxCalls → Meets (f.body args) s.enterCall p t →
      Meets (fun call => call f args) s p t

variable {α β : Type} {m : Caller → Eval α} {p : Caller → Eval β} {s t : Store}

theorem Meets.map {γ : Type} (f : α → γ) (h : Meets m s p t) :
    Meets (fun call => f <$> m call) s p t := by
  have hbind := Meets.first (fun a _ => pure (f a)) h
  simpa only [bind_pure_comp] using hbind

theorem Meets.nested (h : Meets m s p t) : Nested s t := by
  induction h with
  | here m s => exact .refl s
  | first k _ ih => exact ih
  | next hm _ ih => exact .of_grows (hm.respects shields_invariant).toGrows ih
  | mapError f _ ih => exact ih
  | inScope bindings _ ih => exact .of_openScope ih
  | entered _ _ ih => exact .of_grows (.of_same rfl rfl rfl) ih

end Eval

end TextAdventure
