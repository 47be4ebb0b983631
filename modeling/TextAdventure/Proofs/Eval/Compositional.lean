import TextAdventure.Eval

/-! # Properties that computations have by their parts

Values have such a property, and a sequence has it if its parts do. Then a run over a list has it if it
has the property for every item.
-/
namespace TextAdventure.Eval

variable {α β : Type}

/-- A property of computations that values have, and sequences of computations that have it. -/
structure Compositional (P : (α : Type) → Eval α → Prop) : Prop where
  pure {α : Type} (a : α) : P α (pure a)
  bind {α β : Type} {m : Eval α} {f : α → Eval β} : P α m → (∀ a, P β (f a)) → P β (m >>= f)

namespace Compositional

variable {P : (α : Type) → Eval α → Prop} (hP : Compositional P)
include hP

theorem anyM {p : α → Eval Bool} {xs : List α} (h : ∀ x ∈ xs, P Bool (p x)) :
    P Bool (xs.anyM p) := by
  induction xs with
  | nil => exact hP.pure false
  | cons x xs ih =>
    have hx := h x List.mem_cons_self
    have hxs := ih fun y hy => h y (List.mem_cons_of_mem x hy)
    rw [List.anyM]
    apply hP.bind hx
    intro b
    cases b with
    | true => exact hP.pure true
    | false => exact hxs

theorem filterM {p : α → Eval Bool} {xs : List α} (h : ∀ x ∈ xs, P Bool (p x)) :
    P (List α) (xs.filterM p) := by
  have haux : ∀ acc, P (List α) (xs.filterAuxM p acc) := by
    induction xs with
    | nil => intro acc; exact hP.pure acc
    | cons x xs ih =>
      intro acc
      have hx := h x List.mem_cons_self
      have hxs := ih fun y hy => h y (List.mem_cons_of_mem x hy)
      exact hP.bind hx fun b => hxs _
  exact hP.bind (haux []) fun ys => hP.pure ys.reverse

theorem mapM {f : α → Eval β} {xs : List α} (h : ∀ x ∈ xs, P β (f x)) :
    P (List β) (xs.mapM f) := by
  induction xs with
  | nil => exact hP.pure []
  | cons x xs ih =>
    have hx := h x List.mem_cons_self
    have hxs := ih fun y hy => h y (List.mem_cons_of_mem x hy)
    rw [List.mapM_cons]
    exact hP.bind hx fun b => hP.bind hxs fun bs => hP.pure (b :: bs)

theorem findSomeM? {f : α → Eval (Option β)} {xs : List α} (h : ∀ x ∈ xs, P (Option β) (f x)) :
    P (Option β) (xs.findSomeM? f) := by
  induction xs with
  | nil => exact hP.pure none
  | cons x xs ih =>
    have hx := h x List.mem_cons_self
    have hxs := ih fun y hy => h y (List.mem_cons_of_mem x hy)
    rw [List.findSomeM?_cons]
    apply hP.bind hx
    intro r
    cases r with
    | some y => exact hP.pure (some y)
    | none => exact hxs

end Compositional

end TextAdventure.Eval
