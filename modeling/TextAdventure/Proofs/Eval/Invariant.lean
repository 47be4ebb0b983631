import TextAdventure.Proofs.Eval.Closed

/-! # What every evaluation keeps

Whatever code, rules and actions do to a store, they do it by a few kinds of steps: writing lines,
drawing by chance, giving out marks and assigning, each of them possibly in a scope of its own or as a
call. A relation between the store before and the store after that holds of these steps, and of any
number of steps one after the other, holds of every run, whether it succeeds or fails.
-/
namespace TextAdventure

namespace Eval

variable {α β : Type} {R : Store → Store → Prop}

/-- Every run of the computation relates the store before it to the store after it. -/
def Respects (R : Store → Store → Prop) (m : Eval α) : Prop :=
  ∀ s, R s (runOn m s).2

/-- A relation between the stores before and after, kept by each step that an evaluation takes. -/
structure Invariant (R : Store → Store → Prop) : Prop where
  refl (s : Store) : R s s
  trans {s t u : Store} : R s t → R t u → R s u
  writeLines (lines : List String) (s : Store) : R s (s.writeLines lines)
  draw (g : Random.Generator) (s : Store) : R s { s with random := g }
  mark (n : Nat) (s : Store) : R s { s with nextIdentity := n }
  assign {s t : Store} {target u value : Value} {keys : List String} :
    s.assign target keys value = .ok (u, t) → R s t
  setKeys {s t : Store} {name : String} {keys : List String} {value : Value} :
    s.setKeys name keys value = .ok t → R s t
  /-- A scope is closed again whatever happens in it. -/
  closeScope {s t : Store} (scope : Scope) : R (s.openScope scope) t → R s t.closeScope
  /-- A call that is entered is left again whatever happens in it. -/
  exitCall {s t : Store} : s.activeCalls < s.maxCalls →
    R { s with activeCalls := s.activeCalls + 1 } t →
      R s { t with activeCalls := t.activeCalls - 1 }

namespace Invariant

variable (hR : Invariant R)
include hR

theorem pure (a : α) : Respects R (pure a) :=
  hR.refl

theorem ofExcept (r : Except Error α) : Respects R (ofExcept r) := by
  intro s
  rw [runOn_ofExcept]
  exact hR.refl s

theorem bind {m : Eval α} {f : α → Eval β} (hm : Respects R m) (hf : ∀ a, Respects R (f a)) :
    Respects R (m >>= f) := by
  intro s
  have hs := hm s
  rw [runOn_bind]
  cases hr : runOn m s with
  | mk r t =>
    rw [hr] at hs
    cases r with
    | error e => exact hs
    | ok a => exact hR.trans hs (hf a t)

omit hR in
theorem map (f : α → β) {m : Eval α} (hm : Respects R m) : Respects R (f <$> m) := by
  intro s
  rw [runOn_map]
  exact hm s

omit hR in
theorem mapError (f : Error → Error) {m : Eval α} (hm : Respects R m) :
    Respects R (mapError f m) := by
  intro s
  rw [runOn_mapError]
  exact hm s

theorem inScope (scope : Scope) {m : Eval α} (hm : Respects R m) : Respects R (inScope scope m) := by
  intro s
  rw [runOn_inScope]
  exact hR.closeScope scope (hm _)

theorem asCall {m : Eval α} (hm : Respects R m) : Respects R (asCall m) := by
  intro s
  rw [runOn_asCall]
  split
  next h => exact hR.exitCall h (hm _)
  next => exact hR.refl s

theorem change {f : Store → Except Error (α × Store)} (hf : ∀ s a t, f s = .ok (a, t) → R s t) :
    Respects R (change f) := by
  intro s
  rw [runOn_change]
  cases h : f s with
  | error e => exact hR.refl s
  | ok r => exact hf s r.1 r.2 h

theorem write (lines : List String) : Respects R (write lines) :=
  hR.writeLines lines

theorem storeName (op : AssignOp) (root : String) (keys : List String) (new : Value) :
    Respects R (Code.storeName op root keys new) := by
  refine hR.change fun s a t h => ?_
  obtain ⟨stored, _, h⟩ := Error.bind_eq_ok_iff.mp h
  obtain ⟨u, hu, h⟩ := Error.bind_eq_ok_iff.mp h
  cases h
  exact hR.trans (hR.mark _ s) (hR.setKeys hu)

theorem storeInto (op : AssignOp) (target : Value) (keys : List String) (new : Value) :
    Respects R (Code.storeInto op target keys new) := by
  refine hR.change fun s a t h => ?_
  obtain ⟨stored, _, h⟩ := Error.bind_eq_ok_iff.mp h
  obtain ⟨u, hu, h⟩ := Error.bind_eq_ok_iff.mp h
  cases h
  exact hR.trans (hR.mark _ s) (hR.assign hu)

theorem setProgress (key : String) (n : Nat) : Respects R (Rule.setProgress key n) := by
  refine hR.change fun s a t h => ?_
  obtain ⟨u, hu, h⟩ := Error.bind_eq_ok_iff.mp h
  cases h
  exact hR.setKeys hu

theorem step {m : Eval α} (h : IsStep m) : Respects R m := by
  cases h with
  | pure a => exact hR.pure a
  | throw => exact hR.refl
  | get => exact hR.refl
  | write lines => exact hR.write lines
  | randomIndex n => exact fun s => hR.draw _ s
  | randomUnit => exact fun s => hR.draw _ s
  | holdAll vs => exact fun s => hR.mark _ s
  | storeName op root keys new => exact hR.storeName op root keys new
  | storeInto op target keys new => exact hR.storeInto op target keys new
  | setProgress key n => exact hR.setProgress key n

theorem closed {call : Caller} (hcall : ∀ f args, Respects R (call f args)) :
    Closed fun _ m => Respects R (m call) where
  step := hR.step
  call := hcall
  bind := hR.bind
  mapError _ := mapError _
  inScope scope h := hR.inScope scope h

theorem callWithin (calls : Nat) (f : Function) (args : List Value) :
    Respects R (Function.callWithin calls f args) := by
  -- a call that runs allows one call less to those it makes
  induction calls generalizing f args with
  | zero => exact hR.refl
  | succ calls ih =>
    rw [Function.callWithin_succ]
    exact hR.asCall ((hR.closed ih).body f args)

theorem runClosed : RunClosed fun _ m => Respects R m :=
  hR.closed fun f args s => hR.callWithin _ f args s

theorem resolveScript (script : Script) : Respects R script.resolve :=
  hR.runClosed.resolveScript script

theorem resolveRule (rule : Rule) : Respects R rule.resolve :=
  hR.runClosed.resolveRule rule

theorem perform (owner : String) (c : Command) (a : Action) : Respects R (a.perform owner c) :=
  hR.runClosed.perform owner c a

end Invariant

end Eval

end TextAdventure
