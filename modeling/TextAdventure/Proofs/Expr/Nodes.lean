import TextAdventure.Expr

/-! # Nodes of a tree

An expression is made of others, its children, and these of others again. The nodes of a tree are the whole
expression and the nodes of its children.
-/
namespace TextAdventure

namespace Expr

/-- The expressions that an expression is made of, in the order of the text. -/
def children : Expr → List Expr
  | literal .. | identifier .. => []
  | array items _ | sequence items _ => items
  | object entries _ => entries.map Prod.snd
  | unary _ operand _ => [operand]
  | binary _ left right _ | logical _ left right _ => [left, right]
  | conditional test consequent alternate _ => [test, consequent, alternate]
  | assign _ target value _ => [target, value]
  | member container _ _ => [container]
  | element container key _ => [container, key]
  | call callee args _ => callee :: args
  | arrow pattern body _ => [pattern, body]

/-- The first expression is a node of the second. -/
inductive Node : Expr → Expr → Prop
  | root (e : Expr) : Node e e
  | inside {d c e : Expr} (hc : c ∈ e.children) (h : Node d c) : Node d e

def IsArrow (e : Expr) : Prop :=
  ∃ pattern body span, e = .arrow pattern body span

variable {c e : Expr}

theorem sizeOf_lt_of_mem_children (h : c ∈ e.children) : sizeOf c < sizeOf e := by
  cases e with
  | literal | identifier => cases h
  | array items span | sequence items span =>
    have hmem : c ∈ items := h
    have hlt := List.sizeOf_lt_of_mem hmem
    simp only [array.sizeOf_spec, sequence.sizeOf_spec]
    omega
  | object entries span =>
    obtain ⟨⟨key, c⟩, hentry, rfl⟩ := List.mem_map.mp h
    have hlt := List.sizeOf_lt_of_mem hentry
    simp only [object.sizeOf_spec, Prod.mk.sizeOf_spec] at hlt ⊢
    omega
  | call callee args span =>
    rcases List.mem_cons.mp h with rfl | h
    · simp only [call.sizeOf_spec]
      omega
    · have hlt := List.sizeOf_lt_of_mem h
      simp only [call.sizeOf_spec]
      omega
  | _ =>
    simp only [children, List.mem_cons, List.not_mem_nil, or_false] at h
    rcases h with rfl | rfl | rfl <;> simp <;> omega

theorem induction_children {P : Expr → Prop} (h : ∀ e, (∀ c ∈ e.children, P c) → P e) (e : Expr) : P e :=
  h e fun c _ => induction_children h c
termination_by sizeOf e
decreasing_by exact sizeOf_lt_of_mem_children ‹_›

theorem containsArrowAny_eq (es : List Expr) : containsArrowAny es = es.any containsArrow := by
  induction es with
  | nil => rfl
  | cons e es ih => rw [containsArrowAny, ih, List.any_cons]

theorem containsArrowEntry_eq (entries : List (String × Expr)) :
    containsArrowEntry entries = (entries.map Prod.snd).any containsArrow := by
  induction entries with
  | nil => rfl
  | cons entry entries ih => rw [containsArrowEntry, ih, List.map_cons, List.any_cons]

theorem containsArrow_iff_children :
    e.containsArrow = true ↔ e.IsArrow ∨ ∃ c ∈ e.children, c.containsArrow = true := by
  cases e with
  | arrow pattern body span => simp [containsArrow, IsArrow]
  | object entries span =>
    have hroot : ¬(object entries span).IsArrow := by simp [IsArrow]
    rw [containsArrow, containsArrowEntry_eq, List.any_eq_true, or_iff_right hroot]
    rfl
  | _ => simp [containsArrow, containsArrowAny_eq, IsArrow, children, or_assoc]

theorem containsArrow_iff (e : Expr) : e.containsArrow = true ↔ ∃ d, Node d e ∧ d.IsArrow := by
  induction e using induction_children with
  | h e ih =>
    rw [containsArrow_iff_children]
    constructor
    · rintro (h | ⟨c, hc, h⟩)
      · exact ⟨e, .root e, h⟩
      · obtain ⟨d, hd, harrow⟩ := (ih c hc).mp h
        exact ⟨d, .inside hc hd, harrow⟩
    · rintro ⟨d, hd, harrow⟩
      cases hd with
      | root => exact .inl harrow
      | inside hc hd => exact .inr ⟨_, hc, (ih _ hc).mpr ⟨d, hd, harrow⟩⟩

end Expr

end TextAdventure
