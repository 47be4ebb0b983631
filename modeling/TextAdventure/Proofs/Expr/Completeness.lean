import TextAdventure.Proofs.Expr.Acceptance

/-! # What is derived is read

If tokens derive a tree at a level of the grammar, the reader of that level reads exactly these tokens,
with that tree, wherever the token after them ends the level. The induction is on the derivation, with
the depth of nested assignments bounded by the number of tokens.
-/
namespace TextAdventure

namespace Reader

open TextAdventure.Expr (Derives Level Listed Tree)

variable {ts us vs rest : List TokenKind} {tree : Tree} {level : Level} {k : TokenKind} {l : Nat}

theorem Follows.imp {level' : Level} (h : Follows level rest)
    (hends : ∀ k, Ends level k → Ends level' k) : Follows level' rest := by
  obtain ⟨k, ks, hrest, hk⟩ := h
  exact ⟨k, ks, hrest, hends k hk⟩

theorem ends_conditional (k : TokenKind) (h : Ends .assignment k) : Ends .conditional k := by
  intro y hy hcontinues
  refine h y hy ?_
  simp only [Continues, List.mem_cons] at hcontinues ⊢
  grind

theorem ends_operators (k : TokenKind) (h : Ends .conditional k) : Ends (.operators l) k := by
  intro y hy hcontinues
  refine h y hy ?_
  rcases hcontinues with hsuffix | ⟨l', op, hop, _⟩
  · simp only [Continues, List.mem_cons] at hsuffix ⊢
    grind
  · exact .inr (by rw [hop]; rfl)

theorem ends_tighter (k : TokenKind) (h : Ends (.operators l) k) : Ends (.operators (l + 1)) k := by
  intro y hy hcontinues
  refine h y hy ?_
  rcases hcontinues with hsuffix | ⟨l', op, hop, hl⟩
  · exact .inl hsuffix
  · exact .inr ⟨l', op, hop, by omega⟩

theorem ends_unary (k : TokenKind) (h : Ends (.operators l) k) : Ends .unary k := by
  intro y hy hcontinues
  exact h y hy (.inl hcontinues)

theorem ends_operators_of_precedence {sign : Symbol} {op : Operator}
    (h : Expr.precedence sign = some (l, op)) : Ends (.operators (l + 1)) (.symbol sign) := by
  rintro _ ⟨⟩ (hsuffix | ⟨l', op', hop, hl⟩)
  · simp only [List.mem_cons, List.not_mem_nil, or_false] at hsuffix
    rcases hsuffix with rfl | rfl | rfl <;> cases h
  · rw [h] at hop
    cases hop
    omega

theorem ends_conditional_of_assigns {sign : Symbol} {op : AssignOp} (h : Expr.Assigns sign op) :
    Ends .conditional (.symbol sign) := by
  cases h <;> simp [Ends, Continues, Expr.precedence]

theorem lt_of_precedence {sign : Symbol} {op : Operator} (h : Expr.precedence sign = some (l, op)) :
    l < Expr.operatorLevelCount := by
  cases sign <;> cases h <;> decide

theorem length_le_of_listed {separator : Symbol} {items : List (List TokenKind)}
    (h : Listed separator items ts) {item : List TokenKind} (hitem : item ∈ items) :
    item.length ≤ ts.length := by
  cases items with
  | nil => cases hitem
  | cons first rest =>
    obtain ⟨trailing, _, rfl⟩ := h.exists_trailing
    rcases List.mem_cons.mp hitem with rfl | hitem
    · simp
    · obtain ⟨before, after, rfl⟩ := List.append_of_mem hitem
      simp only [List.flatMap_append, List.flatMap_cons, List.length_append, List.length_cons]
      omega

theorem starts_of_postfixForm (h : Derives level ts tree)
    (hlevel : level = .postfixForm ∨ level = .primary) :
    ∃ k ks, ts = k :: ks ∧ k.symbol?.bind prefixOp? = none := by
  induction h with
  | bare _ ih => exact ih (.inr rfl)
  | call _ _ _ ih _ | member _ ih | element _ _ ih _ =>
    obtain ⟨k, ks, rfl, hk⟩ := ih (.inl rfl)
    exact ⟨k, _, rfl, hk⟩
  | @literal k _ h =>
    refine ⟨k, [], rfl, ?_⟩
    cases k <;> first
      | rfl
      | cases h
  | identifier | parens | array | object => exact ⟨_, _, rfl, rfl⟩
  | _ => simp at hlevel

/-- The reader of the level reads exactly the tokens, with the tree, if nested assignments are read to a
depth of at least the number of tokens and the token that follows ends the level. -/
def Complete : Level → List TokenKind → Tree → Prop
  | .action, ts, tree => ∀ depth rest, ts.length ≤ depth → Follows .action rest →
    Accepts (action (assignment depth)) ts rest (·.tree = tree)
  | .sequence, ts, tree => ∀ depth rest, ts.length ≤ depth → Follows .sequence rest →
    Accepts (sequence (assignment depth)) ts rest (·.tree = tree)
  | .assignment, ts, tree => ∀ depth rest, ts.length ≤ depth → Follows .assignment rest →
    Accepts (assignment depth) ts rest (·.tree = tree)
  -- what an assignment writes to ends at the sign of the assignment
  | .conditional, ts, tree => ∀ depth rest, ts.length ≤ depth + 1 → Follows .conditional rest →
    (tree.isPlace = false → Follows .assignment rest) →
    Accepts (conditional (assignment depth)) ts rest (·.tree = tree)
  | .operators l, ts, tree => ∀ depth rest, ts.length ≤ depth + 1 → Follows (.operators (l + 1)) rest →
    Resumes (operators (unary (assignment depth)) (operatorLevels.drop l))
      (operatorStep (unary (assignment depth)) (operatorLevels.drop l)) ts rest tree
  | .unary, ts, tree => ∀ depth rest, ts.length ≤ depth + 1 → Follows .unary rest →
    Accepts (unary (assignment depth)) ts rest (·.tree = tree)
  | .postfixForm, ts, tree => ∀ depth rest, ts.length ≤ depth + 1 →
    Resumes (postfixExpr (assignment depth)) (postfixStep (assignment depth)) ts rest tree
  | .primary, ts, tree => ∀ depth rest, ts.length ≤ depth + 1 →
    Accepts (primary (assignment depth)) ts rest (·.tree = tree)

variable {depth : Nat}

theorem Complete.accepts_operators (h : Complete (.operators l) ts tree)
    (hlen : ts.length ≤ depth + 1) (hrest : Follows (.operators l) rest) :
    Accepts (operators (unary (assignment depth)) (operatorLevels.drop l)) ts rest
      (·.tree = tree) :=
  (h depth rest hlen (hrest.imp ends_tighter)).accepts fun _ _ hu =>
    run_operatorStep_of_follows hu hrest

theorem Complete.accepts_postfixForm (h : Complete .postfixForm ts tree)
    (hlen : ts.length ≤ depth + 1) (hrest : Follows .postfixForm rest) :
    Accepts (postfixExpr (assignment depth)) ts rest (·.tree = tree) :=
  (h depth rest hlen).accepts fun _ _ hu => run_postfixStep_of_follows hu hrest

theorem accepts_parts {separator : Symbol} {parts : List (List TokenKind × Tree)}
    (ih : ∀ p ∈ parts, Complete .assignment p.1 p.2)
    (hts : Listed separator (parts.map Prod.fst) ts) (hlen : ts.length ≤ depth) :
    ∀ p ∈ parts, ∀ us, Follows .assignment us →
      Accepts (assignment depth) p.1 us (·.tree = p.2) := by
  intro p hp us hus
  have hle := length_le_of_listed hts (List.mem_map_of_mem hp)
  exact ih p hp depth us (by omega) hus

theorem complete_of_derives (h : Derives level ts tree) : Complete level ts tree := by
  induction h with
  | pattern _ ih =>
    intro depth rest hlen hrest
    exact accepts_pattern hrest (ih depth rest hlen (hrest.imp fun k hk => .inl hk))
  | arrow _ _ ihp ihb =>
    intro depth rest hlen hrest
    simp only [List.length_append, List.length_cons] at hlen
    refine accepts_arrow (ihp depth _ (by omega) ⟨_, _, rfl, .inr (.inr rfl)⟩) ?_
    exact ihb depth rest (by omega) (hrest.imp fun k hk => .inl hk)
  | sequence hne h hts ih =>
    intro depth rest hlen hrest
    exact accepts_sequence hne (accepts_parts ih hts hlen)
      (fun p hp => Expr.derives_starts (h p hp)) hts hrest
  | value h ih =>
    intro depth rest hlen hrest
    obtain ⟨k, ks, rfl, _⟩ := Expr.derives_starts h
    cases depth with
    | zero => cases hlen
    | succ depth =>
      exact accepts_value hrest (ih depth rest hlen (hrest.imp ends_conditional) fun _ => hrest)
  | assign _ hplace hop _ iht ihv =>
    intro depth rest hlen hrest
    simp only [List.length_append, List.length_cons] at hlen
    cases depth with
    | zero => omega
    | succ depth =>
      refine accepts_assign (iht depth _ (by omega) ?_ ?_) hplace hop (ihv depth rest (by omega) hrest)
      · exact ⟨_, _, rfl, ends_conditional_of_assigns hop⟩
      · intro hfalse
        rw [hplace] at hfalse
        cases hfalse
  | test _ ih =>
    intro depth rest hlen hrest _
    exact accepts_test hrest (ih.accepts_operators hlen (hrest.imp ends_operators))
  | conditional _ _ _ iht ihc iha =>
    intro depth rest hlen _ hrest
    simp only [List.length_append, List.length_cons] at hlen
    refine accepts_conditional (iht.accepts_operators (by omega) ?_) (ihc depth _ (by omega) ?_)
      (iha depth rest (by omega) (hrest rfl))
    · exact ⟨_, _, rfl, by simp [Ends, Continues, Expr.precedence]⟩
    · exact ⟨_, _, rfl, ends_assignment_of_closing (by simp)⟩
  | operand hlevel _ ih =>
    intro depth rest hlen hrest
    exact resumes_operand hlevel (ih.accepts_operators hlen hrest)
  | joined _ hop _ ihl ihr =>
    intro depth rest hlen hrest
    simp only [List.length_append, List.length_cons] at hlen
    refine resumes_joined hop (lt_of_precedence hop) (ihl depth _ (by omega) ?_)
      (ihr.accepts_operators (by omega) hrest)
    exact ⟨_, _, rfl, ends_operators_of_precedence hop⟩
  | tightest _ ih =>
    intro depth rest hlen hrest s hs
    obtain ⟨e, u, hrun, hu, he⟩ := ih depth rest hlen (hrest.imp ends_unary) s hs
    exact ⟨e, u, u.tokens.length, hrun.trans (run_loopFor_of_none rfl _).symm, hu, Nat.le_refl _, he⟩
  | plain h ih =>
    intro depth rest hlen hrest
    exact accepts_unary_plain (starts_of_postfixForm h (.inl rfl)) (ih.accepts_postfixForm hlen hrest)
  | prefixed hop _ ih =>
    intro depth rest hlen hrest
    simp only [List.length_cons] at hlen
    exact accepts_unary_prefixed hop (ih depth rest (by omega) hrest)
  | bare _ ih =>
    intro depth rest hlen
    exact resumes_postfix (ih depth rest hlen)
  | call _ h hus ihc ih =>
    intro depth rest hlen
    simp only [List.length_append, List.length_cons, List.length_nil] at hlen
    rw [List.append_assoc]
    exact resumes_call (ihc depth _ (by omega)) (accepts_parts ih hus (by omega))
      (fun p hp => Expr.derives_starts (h p hp)) hus
  | member _ ih =>
    intro depth rest hlen
    simp only [List.length_append, List.length_cons, List.length_nil] at hlen
    exact resumes_member (ih depth _ (by omega))
  | element _ _ ih ihk =>
    intro depth rest hlen
    simp only [List.length_append, List.length_cons, List.length_nil] at hlen
    rw [List.append_assoc]
    refine resumes_element (ih depth _ (by omega)) (ihk depth _ (by omega) ?_)
    exact ⟨_, _, rfl, ends_assignment_of_closing (by simp)⟩
  | literal h => exact fun depth rest _ => accepts_literal h
  | identifier => exact fun depth rest _ => accepts_identifier
  | parens _ ih =>
    intro depth rest hlen
    simp only [List.length_append, List.length_cons, List.length_nil] at hlen
    exact accepts_parens (ih depth _ (by omega) ⟨_, _, rfl, .inr (.inl rfl)⟩)
  | array h hts ih =>
    intro depth rest hlen
    simp only [List.length_append, List.length_cons, List.length_nil] at hlen
    exact accepts_array (accepts_parts ih hts (by omega)) (fun p hp => Expr.derives_starts (h p hp)) hts
  | object hk h hts ih =>
    intro depth rest hlen
    simp only [List.length_append, List.length_cons, List.length_nil] at hlen
    refine accepts_object hk (fun p hp us hus => ih p hp depth us ?_ hus) hts
    have hle := length_le_of_listed hts (List.mem_map_of_mem hp)
    simp only [Expr.Entry.tokens, List.length_cons] at hle
    omega

end Reader

end TextAdventure
