import Mathlib.Algebra.BigOperators.Group.List.Basic
import Mathlib.Data.List.Infix
import TextAdventure.Proofs.Expr.Grammar

/-! # Balanced parentheses

Parentheses are opened and closed in pairs in whatever is derived. Brackets and braces are left out: the
span of a tree never ends inside of them.
-/
namespace TextAdventure.Expr

def parenWeight : TokenKind → Int
  | .symbol .leftParen => 1
  | .symbol .rightParen => -1
  | _ => 0

/-- The parentheses opened less those closed. -/
def openParens : List TokenKind → Int
  | [] => 0
  | k :: ts => parenWeight k + openParens ts

/-- Every parenthesis is closed, and none that has not been opened. -/
structure Balanced (ts : List TokenKind) : Prop where
  nonneg : ∀ us, us <+: ts → 0 ≤ openParens us
  total : openParens ts = 0

instance (ts : List TokenKind) : Decidable (Balanced ts) :=
  decidable_of_iff ((∀ us ∈ ts.inits, 0 ≤ openParens us) ∧ openParens ts = 0)
    ⟨fun h => ⟨fun us hus => h.1 us (List.mem_inits us ts |>.mpr hus), h.2⟩,
      fun h => ⟨fun us hus => h.nonneg us (List.mem_inits us ts |>.mp hus), h.total⟩⟩

variable {ts us vs : List TokenKind} {k : TokenKind}

@[simp] theorem openParens_nil : openParens [] = 0 := rfl

@[simp] theorem openParens_cons (k : TokenKind) (ts : List TokenKind) :
    openParens (k :: ts) = parenWeight k + openParens ts := rfl

@[simp] theorem openParens_append (ts us : List TokenKind) :
    openParens (ts ++ us) = openParens ts + openParens us := by
  induction ts with
  | nil => simp
  | cons k ts ih => simp [ih, Int.add_assoc]

theorem balanced_nil : Balanced [] :=
  ⟨fun _ hus => List.prefix_nil.mp hus ▸ Int.le_refl 0, rfl⟩

theorem prefix_append_cases (h : vs <+: ts ++ us) : vs <+: ts ∨ ∃ ws, ws <+: us ∧ vs = ts ++ ws := by
  rcases List.prefix_or_prefix_of_prefix h (List.prefix_append ts us) with h' | ⟨ws, rfl⟩
  · exact .inl h'
  · exact .inr ⟨ws, (List.prefix_append_right_inj ts).mp h, rfl⟩

theorem Balanced.append (h : Balanced ts) (h' : Balanced us) : Balanced (ts ++ us) := by
  refine ⟨fun vs hvs => ?_, by rw [openParens_append, h.total, h'.total]; rfl⟩
  rcases prefix_append_cases hvs with hvs | ⟨ws, hws, rfl⟩
  · exact h.nonneg vs hvs
  · rw [openParens_append, h.total, Int.zero_add]
    exact h'.nonneg ws hws

theorem Balanced.cons (hk : parenWeight k = 0) (h : Balanced ts) : Balanced (k :: ts) := by
  refine ⟨fun us hus => ?_, by rw [openParens_cons, hk, h.total]; rfl⟩
  rcases List.prefix_cons_iff.mp hus with rfl | ⟨vs, rfl, hvs⟩
  · exact Int.le_refl _
  · rw [openParens_cons, hk, Int.zero_add]
    exact h.nonneg vs hvs

theorem balanced_singleton (hk : parenWeight k = 0) : Balanced [k] :=
  balanced_nil.cons hk

theorem Balanced.parens (h : Balanced ts) :
    Balanced (.symbol .leftParen :: ts ++ [.symbol .rightParen]) := by
  refine ⟨fun us hus => ?_, by simp [h.total, parenWeight]⟩
  rcases List.prefix_cons_iff.mp hus with rfl | ⟨vs, rfl, hvs⟩
  · exact Int.le_refl _
  rcases prefix_append_cases hvs with hvs | ⟨ws, hws, rfl⟩
  · have hle := h.nonneg vs hvs
    simp only [openParens_cons, parenWeight]
    omega
  · rcases List.prefix_cons_iff.mp hws with rfl | ⟨xs, rfl, hxs⟩
    · simp [h.total, parenWeight]
    · rw [List.prefix_nil.mp hxs]
      simp [h.total, parenWeight]

theorem Listed.balanced {separator : Symbol} {items : List (List TokenKind)} (h : Listed separator items ts)
    (hseparator : parenWeight (.symbol separator) = 0) (hitems : ∀ item ∈ items, Balanced item) :
    Balanced ts := by
  cases items with
  | nil =>
    cases h
    exact balanced_nil
  | cons first rest =>
    obtain ⟨trailing, htrailing, rfl⟩ := h.exists_trailing
    obtain ⟨hfirst, hrest⟩ := List.forall_mem_cons.mp hitems
    refine hfirst.append (Balanced.append ?_ ?_)
    · clear h hitems
      induction rest with
      | nil => exact balanced_nil
      | cons item rest ih =>
        obtain ⟨hitem, hrest⟩ := List.forall_mem_cons.mp hrest
        exact (hitem.cons hseparator).append (ih hrest)
    · rcases htrailing with rfl | rfl
      · exact balanced_nil
      · exact balanced_singleton hseparator

theorem parenWeight_of_literal? {v : Literal} (h : literal? k = some v) : parenWeight k = 0 := by
  cases k with
  | symbol => cases h
  | _ => rfl

theorem parenWeight_of_key? {key : String} (h : key? k = some key) : parenWeight k = 0 := by
  cases k with
  | symbol => cases h
  | _ => rfl

theorem parenWeight_of_assigns {sign : Symbol} {op : AssignOp} (h : Assigns sign op) :
    parenWeight (.symbol sign) = 0 := by
  cases h <;> rfl

theorem parenWeight_of_prefixes {sign : Symbol} {op : UnaryOp} (h : Prefixes sign op) :
    parenWeight (.symbol sign) = 0 := by
  cases h <;> rfl

theorem parenWeight_of_precedence {sign : Symbol} {p : Nat × Reader.Operator}
    (h : precedence sign = some p) : parenWeight (.symbol sign) = 0 := by
  cases sign with
  | leftParen | rightParen => cases h
  | _ => rfl

theorem Derives.balanced {level : Level} {t : Tree} (h : Derives level ts t) : Balanced ts := by
  induction h with
  | pattern _ ih | value _ ih | test _ ih | operand _ _ ih | tightest _ ih | plain _ ih | bare _ ih =>
    exact ih
  | arrow _ _ ih ih' => exact ih.append (ih'.cons rfl)
  | sequence _ _ hts ih => exact hts.balanced rfl (List.forall_mem_map.mpr ih)
  | assign _ _ hop _ ih ih' => exact ih.append (ih'.cons (parenWeight_of_assigns hop))
  | conditional _ _ _ iht ihc iha => exact (iht.append (ihc.cons rfl)).append (iha.cons rfl)
  | joined _ hop _ ih ih' => exact ih.append (ih'.cons (parenWeight_of_precedence hop))
  | prefixed hop _ ih => exact ih.cons (parenWeight_of_prefixes hop)
  | call _ _ hus ihc ih =>
    rw [List.append_assoc]
    exact ihc.append (hus.balanced rfl (List.forall_mem_map.mpr ih)).parens
  | member _ ih => exact ih.append ((balanced_singleton rfl).cons rfl)
  | element _ _ ih ihk => exact (ih.append (ihk.cons rfl)).append (balanced_singleton rfl)
  | literal h => exact balanced_singleton (parenWeight_of_literal? h)
  | identifier => exact balanced_singleton rfl
  | parens _ ih => exact ih.parens
  | array _ hts ih =>
    exact ((hts.balanced rfl (List.forall_mem_map.mpr ih)).cons rfl).append (balanced_singleton rfl)
  | object hk _ hts ih =>
    refine Balanced.append (Balanced.cons rfl (hts.balanced rfl (List.forall_mem_map.mpr fun p hp => ?_)))
      (balanced_singleton rfl)
    exact ((ih p hp).cons rfl).cons (parenWeight_of_key? (hk p hp))

theorem not_balanced_of_open (h : openParens (ts ++ us) = 0) (hts : 0 < openParens ts)
    (vs : List TokenKind) : ¬Balanced (us ++ vs) := by
  intro hbalanced
  have hle := hbalanced.nonneg us (List.prefix_append us vs)
  rw [openParens_append] at h
  omega

theorem not_balanced_of_close (h : openParens (ts ++ us) = 0) (hus : openParens us < 0) :
    ¬Balanced ts := by
  intro hbalanced
  have hzero := hbalanced.total
  rw [openParens_append] at h
  omega

end TextAdventure.Expr
