import TextAdventure.Proofs.Expr.Arrow
import TextAdventure.Proofs.Expr.Balance
import TextAdventure.Proofs.Expr.Taking

/-! # What expressions span

The span of an expression goes from the first token of some of the tokens that were read for it to the last
one of them. Parentheses around an expression are not part of its span, and so they are missing from the
spans of the expressions that begin or end with it.
-/
namespace TextAdventure

namespace Expr

/-- The tokens end one after the other. -/
def Ordered (ts : List Token) : Prop :=
  ts.Pairwise fun t u => t.span.stop ≤ u.span.stop

/-- The span starts where the first of the tokens does, and stops where the last one does. -/
structure Bounds (ts : List Token) (span : Span) : Prop where
  start : ∃ t ∈ ts.head?, span.start = t.span.start
  stop : ∃ t ∈ ts.getLast?, span.stop = t.span.stop

/-- Of the tokens read for the expression it spans those in the middle. The others leave a parenthesis open
or close one, and those in the middle derive the tree of the expression if they balance. -/
structure Spans (e : Expr) (before mid after : List Token) : Prop where
  bounds : Bounds mid e.span
  opens : before = [] ∨ 0 < openParens (before.map Token.kind)
  closes : after = [] ∨ openParens (after.map Token.kind) < 0
  derives : Balanced (mid.map Token.kind) → Derives .sequence (mid.map Token.kind) e.tree

def Covered (ts : List Token) (e : Expr) : Prop :=
  ∃ before mid after, ts = before ++ (mid ++ after) ∧ Spans e before mid after

variable {ts us vs : List Token} {t u : Token} {e l r : Expr} {span : Span}

theorem Ordered.left (h : Ordered (ts ++ us)) : Ordered ts :=
  (List.pairwise_append.mp h).1

theorem Ordered.right (h : Ordered (ts ++ us)) : Ordered us :=
  (List.pairwise_append.mp h).2.1

theorem Ordered.max_stop (h : Ordered (ts ++ us)) (ht : t ∈ ts) (hu : u ∈ us) :
    max u.span.stop t.span.stop = u.span.stop :=
  Nat.max_eq_left ((List.pairwise_append.mp h).2.2 t ht u hu)

theorem bounds_singleton (t : Token) : Bounds [t] t.span :=
  ⟨⟨t, rfl, rfl⟩, t, rfl, rfl⟩

theorem Bounds.exists_mem (h : Bounds ts span) : ∃ t ∈ ts, span.stop = t.span.stop := by
  obtain ⟨t, ht, hstop⟩ := h.stop
  exact ⟨t, List.mem_of_getLast? ht, hstop⟩

theorem covered_of_bounds (h : Bounds ts e.span) (hd : Derives .sequence (ts.map Token.kind) e.tree) :
    Covered ts e :=
  ⟨[], ts, [], by simp, h, .inl rfl, .inl rfl, fun _ => hd⟩

theorem Covered.exists_mem (h : Covered ts e) : ∃ t ∈ ts, e.span.stop = t.span.stop := by
  obtain ⟨before, mid, after, rfl, h⟩ := h
  obtain ⟨t, ht, hstop⟩ := h.bounds.exists_mem
  exact ⟨t, by simp [ht], hstop⟩

theorem Covered.extend (h : Covered ts l) (hts : Balanced (ts.map Token.kind))
    (hstart : e.span.start = l.span.start) (hstop : ∃ t ∈ us.getLast?, e.span.stop = t.span.stop)
    (hvs : vs = [] ∨ openParens (vs.map Token.kind) < 0)
    (hd : Derives .sequence ((ts ++ (us ++ vs)).map Token.kind) e.tree) : Covered (ts ++ (us ++ vs)) e := by
  obtain ⟨before, mid, after, rfl, h⟩ := h
  refine ⟨before, mid ++ (after ++ us), vs, by simp, ⟨⟨?_, ?_⟩, h.opens, hvs, fun hmid => ?_⟩⟩
  · obtain ⟨t, ht, hspan⟩ := h.bounds.start
    refine ⟨t, ?_, hstart.trans hspan⟩
    rw [List.head?_append, ht]
    rfl
  · obtain ⟨t, ht, hspan⟩ := hstop
    refine ⟨t, ?_, hspan⟩
    rw [List.getLast?_append, List.getLast?_append, ht]
    rfl
  -- a parenthesis that is cut off leaves the other one of its pair behind
  · rcases h.opens with rfl | hopens
    · rcases hvs with rfl | hcloses
      · simpa using hd
      · have htotal := hd.balanced.total
        refine absurd hmid (not_balanced_of_close ?_ hcloses)
        simpa using htotal
    · have htotal := hts.total
      rw [List.map_append] at htotal
      rw [← List.append_assoc, List.map_append] at hmid
      exact absurd hmid (not_balanced_of_open htotal hopens _)

theorem Covered.join (hl : Covered ts l) (hr : Covered vs r) (hord : Ordered (ts ++ (us ++ vs)))
    (hts : Balanced (ts.map Token.kind)) (hspan : e.span = l.span.through r.span)
    (hd : Derives .sequence ((ts ++ (us ++ vs)).map Token.kind) e.tree) : Covered (ts ++ (us ++ vs)) e := by
  obtain ⟨t, ht, htstop⟩ := hl.exists_mem
  obtain ⟨before, mid, after, rfl, hr⟩ := hr
  obtain ⟨u, hu, hustop⟩ := hr.bounds.stop
  have hmax := hord.max_stop (u := u) ht (by simp [List.mem_of_getLast? hu])
  have hassoc : us ++ (before ++ (mid ++ after)) = us ++ (before ++ mid) ++ after := by simp
  rw [hassoc] at hd ⊢
  refine hl.extend hts (by rw [hspan]; rfl) ⟨u, ?_, ?_⟩ hr.closes hd
  · rw [List.getLast?_append, List.getLast?_append, hu]
    rfl
  · rw [hspan]
    exact (congrArg₂ max hustop htstop).trans hmax

theorem Covered.parens (h : Covered ts e) (hus : openParens (us.map Token.kind) = 0)
    (ht : t.kind = .symbol .leftParen) (hu : u.kind = .symbol .rightParen) :
    Covered (t :: (ts ++ us) ++ [u]) e := by
  obtain ⟨before, mid, after, rfl, h⟩ := h
  refine ⟨t :: before, mid, after ++ us ++ [u], by simp, h.bounds, .inr ?_, .inr ?_, h.derives⟩
  · rcases h.opens with rfl | hopens
    · simp [ht, parenWeight]
    · simp only [List.map_cons, openParens_cons, ht, parenWeight]
      omega
  · rcases h.closes with rfl | hcloses
    · simp [hus, hu, parenWeight]
    · simp only [List.map_append, List.map_cons, List.map_nil, openParens_append, openParens_cons,
        openParens_nil, hus, hu, parenWeight]
      omega

theorem Derives.operators_le {level level' : Nat} {ks : List TokenKind} {tree : Tree}
    (h : Derives (.operators level) ks tree) (hle : level' ≤ level) (hlevel : level ≤ operatorLevelCount) :
    Derives (.operators level') ks tree := by
  induction hle using Nat.decreasingInduction with
  | self => exact h
  | of_succ k hk ih => exact .operand (Nat.lt_of_lt_of_le hk hlevel) ih

theorem Derives.sequence_of_level {level : Level} {ks : List TokenKind} {tree : Tree}
    (h : Derives level ks tree) (haction : level ≠ .action)
    (hlevel : ∀ n, level = .operators n → n ≤ operatorLevelCount) : Derives .sequence ks tree := by
  have hassignment : ∀ {ks tree}, Derives .assignment ks tree → Derives .sequence ks tree := by
    intro ks tree h
    have hparts : Derives .sequence ks (.ofItems ([(ks, tree)].map Prod.snd)) :=
      .sequence (by simp) (by simpa using h) (by simpa using (Listed.items ks [] : Listed .semicolon _ _))
    exact hparts
  have hunary : ∀ {ks tree}, Derives .unary ks tree → Derives .sequence ks tree := fun h =>
    hassignment (.value (.test (h.tightest.operators_le (Nat.zero_le _) (Nat.le_refl _))))
  cases level with
  | action => exact absurd rfl haction
  | sequence => exact h
  | assignment => exact hassignment h
  | conditional => exact hassignment h.value
  | operators n => exact hassignment (.value (.test (h.operators_le (Nat.zero_le n) (hlevel n rfl))))
  | unary => exact hunary h
  | postfixForm => exact hunary h.plain
  | primary => exact hunary h.bare.plain

end Expr

namespace Reader

open TextAdventure.Expr

variable {α : Type} {m nested : Reader Expr} {level level' : Level} {s t v : ReaderState} {k : TokenKind}
  {ts us : List Token} {e e' : Expr}

/-- The tokens are covered if they derive the tree. -/
def Fits (level : Level) (ts : List Token) (e : Expr) : Prop :=
  Derives level (ts.map Token.kind) e.tree → Ordered ts → Covered ts e

structure Spelled (level : Level) (ts : List Token) (e : Expr) : Prop where
  derives : Derives level (ts.map Token.kind) e.tree
  covered : Ordered ts → Covered ts e

/-- A sequence may end with a semicolon that it does not span. -/
def CoveredSequence (ts : List Token) (e : Expr) : Prop :=
  ∃ core trailing, ts = core ++ trailing ∧ openParens (trailing.map Token.kind) = 0 ∧ Covered core e

structure SpelledSequence (ts : List Token) (e : Expr) : Prop where
  derives : Derives .sequence (ts.map Token.kind) e.tree
  covered : Ordered ts → CoveredSequence ts e

theorem Takes.spelled (h : Takes m (Fits level)) (hs : Sound level m) : Takes m (Spelled level) :=
  fun s => ((h s).and_reads (hs s)).imp fun _ _ h => ⟨h.1, h.2 h.1⟩

theorem Takes.passing {m : Reader α} {R : List Token → α → Prop} (h : Takes m R) : Passing m :=
  fun s => (h s).imp fun _ _ _ => trivial

theorem bounds_through {token : Token} (hpass : s.Passes (token :: ts) v) (hord : Ordered (token :: ts)) :
    Bounds (token :: ts) (token.span.through v.previous) := by
  refine ⟨⟨token, rfl, rfl⟩, (token :: ts).getLast (List.cons_ne_nil _ _), rfl, ?_⟩
  rw [hpass.previous_eq rfl]
  refine Nat.max_eq_left ?_
  cases ts with
  | nil => exact Nat.le_refl _
  | cons u ts => exact (List.pairwise_cons.mp hord).1 _ (List.getLast_mem (List.cons_ne_nil _ _))

theorem stop_through (h : Covered ts e) (hord : Ordered (ts ++ us)) (hpass : s.Passes us v) (hus : us ≠ []) :
    ∃ u ∈ us.getLast?, (e.span.through v.previous).stop = u.span.stop := by
  obtain ⟨t, ht, hstop⟩ := h.exists_mem
  refine ⟨us.getLast hus, List.getLast?_eq_some_getLast hus, ?_⟩
  rw [hpass.previous_eq (List.getLast?_eq_some_getLast hus)]
  exact (congrArg (max _) hstop).trans (hord.max_stop ht (List.getLast_mem hus))

theorem Spelled.extend (h : Spelled level ts e) (hpass : s.Passes us v) (hus : us ≠ [])
    (hspan : e'.span = e.span.through v.previous)
    (hlevel : ∀ {ks tree}, Derives level' ks tree → Derives .sequence ks tree) :
    Fits level' (ts ++ us) e' := by
  intro hd hord
  have hcovered := h.covered hord.left
  have hstop : ∃ u ∈ us.getLast?, e'.span.stop = u.span.stop := by
    rw [hspan]
    exact stop_through hcovered hord hpass hus
  rw [← List.append_nil us] at hd ⊢
  exact hcovered.extend h.derives.balanced (by rw [hspan]; rfl) hstop (.inl rfl) (hlevel hd)

theorem fits_of_bounds (hlevel : ∀ {ks tree}, Derives level ks tree → Derives .sequence ks tree)
    (h : Ordered ts → Bounds ts e.span) : Fits level ts e :=
  fun hd hord => covered_of_bounds (h hord) (hlevel hd)

/-- One expression and maybe a semicolon after it, or several expressions. -/
def Tail (first : Expr) (us : List Token) (es : List Expr) : Prop :=
  es = [first] ∧ openParens (us.map Token.kind) = 0 ∨ 2 ≤ es.length ∧ us ≠ []

theorem takes_nextInSequence (hn : Passing nested) {first : Expr} {us : List Token} {es : List Expr}
    (h : es = [first] ∧ us = [] ∨ 2 ≤ es.length ∧ us ≠ []) :
    Takes (nextInSequence nested es)
      (Turn (fun us es => es = [first] ∧ us = [] ∨ 2 ≤ es.length ∧ us ≠ []) (Tail first) us es) := by
  intro s
  unfold nextInSequence
  refine takesAt_eat (fun hy => ?_) (takesAt_pure ?_)
  · have hkind := s.symbol?_eq_some_iff.mp hy
    have htail : Tail first (us ++ [s.current]) es := by
      rcases h with ⟨rfl, rfl⟩ | ⟨hlen, -⟩
      · exact .inl ⟨rfl, by simp [hkind, parenWeight]⟩
      · exact .inr ⟨hlen, by simp⟩
    refine takesAt_current ?_
    split
    iterate 4 exact takesAt_pure htail
    refine (hn s.next).bind fun ws e t _ _ => takesAt_pure (.inr ⟨?_, by simp⟩)
    rcases h with ⟨rfl, -⟩ | ⟨hlen, -⟩
    · simp
    · simp only [List.length_append, List.length_cons, List.length_nil]
      omega
  · rcases h with ⟨rfl, rfl⟩ | h
    · exact .inl ⟨rfl, by simp⟩
    · exact .inr (by simpa using h)

theorem takes_sequence (hn : Takes nested (Spelled .assignment)) (hs : Sound .assignment nested) :
    Takes (sequence nested) SpelledSequence := by
  intro s
  have htakes : TakesAt s (sequence nested) fun ts e =>
      Derives .sequence (ts.map Token.kind) e.tree → Ordered ts → CoveredSequence ts e := by
    unfold sequence
    refine (hn s).bind fun ts first t _ hfirst => ?_
    refine (takes_loop (Q := Tail first) (fun _ _ h => takes_nextInSequence hn.passing h) ?_
      (.inl ⟨rfl, rfl⟩) t).bind fun us es v hus htail => ?_
    · rintro us es (⟨rfl, rfl⟩ | h)
      · exact .inl ⟨rfl, rfl⟩
      · exact .inr h
    rw [List.nil_append] at htail
    rcases htail with ⟨rfl, hopen⟩ | ⟨hlen, hne⟩
    · refine takesAt_pure fun _ hord => ⟨ts, us ++ [], rfl, by simpa using hopen, hfirst.covered hord.left⟩
    · match es, hlen with
      | _ :: _ :: _, _ =>
        refine takesAt_spanFrom (takesAt_pure fun hd hord => ?_)
        rw [List.append_nil] at hd hord ⊢
        refine ⟨ts ++ us, [], by simp, rfl, hfirst.extend hus hne rfl (fun h => h) hd hord⟩
  exact (htakes.and_reads (sound_sequence hs s)).imp fun _ _ h => ⟨h.1, h.2 h.1⟩

theorem takesAt_literal {value : Literal} (hk : s.current.kind = k) (hne : k ≠ .eof) :
    TakesAt s (literal value) (Fits .primary) := by
  unfold literal
  refine takesAt_current (takesAt_advance hk hne (takesAt_pure ?_))
  exact fits_of_bounds (fun h => h.sequence_of_level nofun nofun) fun _ => bounds_singleton _

theorem takes_primary (hn : Takes nested (Spelled .assignment)) (hs : Sound .assignment nested) :
    Takes (primary nested) (Fits .primary) := by
  have hlevel : ∀ {ks tree}, Derives .primary ks tree → Derives .sequence ks tree :=
    fun h => h.sequence_of_level nofun nofun
  intro s
  unfold primary
  refine takesAt_current ?_
  split
  next h => exact takesAt_literal h (by simp)
  next h => exact takesAt_literal h (by simp)
  next h => exact takesAt_literal h (by simp)
  next h => exact takesAt_literal h (by simp)
  next h => exact takesAt_literal h (by simp)
  next h =>
    refine takesAt_advance h (by simp) (takesAt_pure ?_)
    exact fits_of_bounds hlevel fun _ => bounds_singleton _
  next h =>
    refine takesAt_advance h (by simp) ((takes_sequence hn hs s.next).bind fun ts e t _ hspelled => ?_)
    refine takesAt_expect fun hy => takesAt_pure fun _ hord => ?_
    have hord' : Ordered ([s.current] ++ (ts ++ [t.current])) := hord
    obtain ⟨core, trailing, rfl, hopen, hcovered⟩ := hspelled.covered hord'.right.left
    exact hcovered.parens hopen h (ReaderState.symbol?_eq_some_iff.mp hy)
  next h =>
    refine takesAt_advance h (by simp) ((passing_separated hn.passing .rightBracket s.next).bind ?_)
    intro us es t hpass _
    refine takesAt_spanFrom (takesAt_pure (fits_of_bounds hlevel fun hord => ?_))
    rw [List.append_nil] at hord ⊢
    exact bounds_through ((s.passes_next h (by simp)).trans hpass) hord
  next h =>
    refine takesAt_advance h (by simp)
      ((passing_separated (passing_objectEntry hn.passing) .rightBrace s.next).bind ?_)
    intro us es t hpass _
    refine takesAt_spanFrom (takesAt_pure (fits_of_bounds hlevel fun hord => ?_))
    rw [List.append_nil] at hord ⊢
    exact bounds_through ((s.passes_next h (by simp)).trans hpass) hord
  next => exact takesAt_fail _
  next => exact takesAt_fail _

/-- What a round of a loop has to take. -/
def StepFits (level : Level) (ts us : List Token) : Option Expr → Prop
  | some e => Fits level (ts ++ us) e
  | none => us = []

theorem takes_turn {step : Expr → Reader (Option Expr)} (h : Spelled level ts e)
    (hreads : Reads (step e) (Round (fun ks e => Derives level ks e.tree)
      (fun ks e => Derives level ks e.tree) (ts.map Token.kind) e))
    (hfits : Takes (step e) (StepFits level ts)) :
    Takes (step e) (Turn (Spelled level) (Spelled level) ts e) := by
  intro s
  refine ((hfits s).and_reads (hreads s)).imp ?_
  rintro us (_ | e') ⟨hround, hstep⟩
  · obtain rfl : us = [] := hstep
    simpa [Turn] using h
  · have hd : Derives level ((ts ++ us).map Token.kind) e'.tree := by simpa [Round] using hround
    exact ⟨hd, hstep hd⟩

theorem takes_postfixStep (hn : Takes nested (Spelled .assignment)) (h : Spelled .postfixForm ts e) :
    Takes (postfixStep nested e) (StepFits .postfixForm ts) := by
  have hlevel : ∀ {ks tree}, Derives .postfixForm ks tree → Derives .sequence ks tree :=
    fun h => h.sequence_of_level nofun nofun
  intro s
  unfold postfixStep
  refine takesAt_symbol? ?_
  split
  next hy =>
    refine takesAt_advance (ReaderState.symbol?_eq_some_iff.mp hy) (by simp)
      ((passing_separated hn.passing .rightParen s.next).bind fun us es t hpass _ => ?_)
    refine takesAt_spanFrom (takesAt_pure (h.extend (s := s) ?_ (List.cons_ne_nil _ _) rfl hlevel))
    simpa using (s.passes_symbol hy).trans hpass
  next hy =>
    refine takesAt_advance (ReaderState.symbol?_eq_some_iff.mp hy) (by simp) (takesAt_current ?_)
    split
    next name hk =>
      refine takesAt_advance hk (by simp) (takesAt_spanFrom (takesAt_pure ?_))
      have hpass := (s.passes_symbol hy).trans (s.next.passes_next hk (by simp))
      exact h.extend hpass (List.cons_ne_nil _ _) rfl hlevel
    next => exact takesAt_fail _
  next hy =>
    refine takesAt_advance (ReaderState.symbol?_eq_some_iff.mp hy) (by simp)
      ((hn s.next).bind fun us key t hus _ => ?_)
    refine takesAt_expect fun hy' => takesAt_spanFrom (takesAt_pure ?_)
    have hpass := (s.passes_symbol hy).trans (hus.trans (t.passes_symbol hy'))
    exact h.extend hpass (List.cons_ne_nil _ _) rfl hlevel
  next => exact takesAt_pure rfl

theorem takes_postfixExpr (hn : Takes nested (Spelled .assignment)) (hs : Sound .assignment nested) :
    Takes (postfixExpr nested) (Spelled .postfixForm) := by
  intro s
  unfold postfixExpr
  refine ((takes_primary hn hs).spelled (sound_primary hs) s).bind fun ts e t _ he => ?_
  refine takes_loop (fun ts e h => takes_turn h (reads_postfixStep hs h.derives) (takes_postfixStep hn h))
    (fun _ _ h => h) ?_ t
  exact ⟨he.derives.bare, he.covered⟩

/-- The tokens of prefix operators, at whose spans they start. -/
def PrefixTokens (ts : List Token) (ops : List (UnaryOp × Span)) : Prop :=
  List.Forall₂ (fun t op => (∃ sign, t.kind = .symbol sign ∧ Prefixes sign op.1) ∧ op.2 = t.span) ts ops

theorem PrefixTokens.prefixesOf {ops : List (UnaryOp × Span)} (h : PrefixTokens ts ops) :
    PrefixesOf (ts.map Token.kind) ops :=
  List.forall₂_map_left_iff.mpr (h.imp fun _ _ h => h.1)

theorem takes_nextPrefix {ops : List (UnaryOp × Span)} (h : PrefixTokens ts ops) :
    Takes (nextPrefix ops) (Turn PrefixTokens PrefixTokens ts ops) := by
  intro s
  unfold nextPrefix
  refine takesAt_current (takesAt_symbol? ?_)
  split
  next op hop =>
    obtain ⟨sign, hsign, hop⟩ := Option.bind_eq_some_iff.mp hop
    have hkind := ReaderState.symbol?_eq_some_iff.mp hsign
    refine takesAt_advance hkind (by simp) (takesAt_pure ?_)
    exact List.rel_append h (.cons ⟨⟨sign, hkind, prefixes_of_prefixOp? hop⟩, rfl⟩ .nil)
  next => exact takesAt_pure (by simpa [Turn] using h)

theorem covered_of_prefixTokens {ops : List (UnaryOp × Span)} {stop : Span} (h : PrefixTokens ts ops)
    (he : Spelled .postfixForm us e) (hstop : ∃ u ∈ us.getLast?, stop = u.span)
    (hord : Ordered (ts ++ us)) :
    Covered (ts ++ us) (ops.foldr (fun op e => .unary op.1 e (op.2.through stop)) e) := by
  induction h with
  | nil => exact he.covered hord
  | @cons t op ts ops hop h ih =>
    have hd : Derives .unary ((t :: ts ++ us).map Token.kind)
        ((op :: ops).foldr (fun op e => Expr.unary op.1 e (op.2.through stop)) e).tree := by
      rw [List.map_append]
      exact derives_of_prefixesOf (PrefixTokens.prefixesOf (.cons hop h)) he.derives
    refine covered_of_bounds ⟨⟨t, rfl, ?_⟩, ?_⟩ (hd.sequence_of_level nofun nofun)
    · rw [← hop.2]
      rfl
    · obtain ⟨u, hu, rfl⟩ := hstop
      refine ⟨u, by rw [List.getLast?_append, hu]; rfl, ?_⟩
      have hord' : Ordered ([t] ++ (ts ++ us)) := hord
      have hmax := hord'.max_stop List.mem_cons_self (List.mem_append_right ts (List.mem_of_getLast? hu))
      rw [← hop.2] at hmax
      exact hmax

theorem takes_unary (hn : Takes nested (Spelled .assignment)) (hs : Sound .assignment nested) :
    Takes (unary nested) (Fits .unary) := by
  intro s
  unfold unary prefixOps
  refine (takes_loop (fun _ _ h => takes_nextPrefix h) (fun _ _ h => h)
    (List.Forall₂.nil : PrefixTokens [] []) s).bind fun ts ops t _ hops => ?_
  refine (takes_postfixExpr hn hs t).bind fun us e u hpass he => takesAt_get (takesAt_pure fun _ hord => ?_)
  rw [List.append_nil] at hord ⊢
  obtain ⟨k, ks, hks, _⟩ := derives_starts he.derives
  have hne : us ≠ [] := by
    rintro rfl
    cases hks
  refine covered_of_prefixTokens hops he ⟨us.getLast hne, List.getLast?_eq_some_getLast hne, ?_⟩ hord
  exact hpass.previous_eq (List.getLast?_eq_some_getLast hne)

theorem Spelled.join {l r : Expr} {vs : List Token} {level₁ level₂ : Level} (hl : Spelled level₁ ts l)
    (us : List Token) (hr : Spelled level₂ vs r) (hspan : e.span = l.span.through r.span)
    (hlevel : ∀ {ks tree}, Derives level ks tree → Derives .sequence ks tree) :
    Fits level (ts ++ (us ++ vs)) e :=
  fun hd hord => (hl.covered hord.left).join (hr.covered hord.right.right) hord hl.derives.balanced hspan
    (hlevel hd)

theorem takes_nextOperand {operand : Reader Expr} {l : Nat} (hl : l < operatorLevelCount)
    (ho : Takes operand (Spelled (.operators (l + 1)))) (ops : List (Symbol × Operator))
    (h : Spelled (.operators l) ts e) :
    Takes (nextOperand ops operand e) (StepFits (.operators l) ts) := by
  intro s
  unfold nextOperand
  refine takesAt_symbol? ?_
  split
  next op hop =>
    obtain ⟨sign, hsign, _⟩ := Option.bind_eq_some_iff.mp hop
    refine takesAt_advance (ReaderState.symbol?_eq_some_iff.mp hsign) (by simp)
      ((ho s.next).bind fun us right t _ hright => takesAt_pure ?_)
    rw [List.append_nil]
    refine h.join [s.current] hright (by cases op <;> rfl) fun h => ?_
    refine h.sequence_of_level nofun fun n hn => ?_
    cases hn
    exact Nat.le_of_lt hl
  next => exact takesAt_pure rfl

theorem takes_operators {operand : Reader Expr} (ho : Takes operand (Spelled .unary))
    (hs : Sound .unary operand) {l : Nat} (hl : l ≤ operatorLevelCount) :
    Takes (operators operand (operatorLevels.drop l)) (Spelled (.operators l)) := by
  induction hl using Nat.decreasingInduction with
  | self => exact fun s => (ho s).imp fun _ _ h => ⟨h.derives.tightest, h.covered⟩
  | of_succ l hl ih =>
    obtain ⟨ops, hdrop, hops⟩ := exists_operatorLevel hl
    rw [hdrop, operators]
    intro s
    unfold leftAssociative
    refine (ih s).bind fun ts e t _ he => ?_
    refine takes_loop (fun ts e h => takes_turn h (reads_nextOperand hops (sound_operators hs hl) h.derives)
      (takes_nextOperand hl ih ops h)) (fun _ _ h => h) ?_ t
    exact ⟨.operand hl he.derives, he.covered⟩

theorem takes_conditional (hn : Takes nested (Spelled .assignment)) (hs : Sound .assignment nested) :
    Takes (conditional nested) (Fits .conditional) := by
  intro s
  unfold conditional
  have hunary := (takes_unary hn hs).spelled (sound_unary hs)
  refine (takes_operators hunary (sound_unary hs) (Nat.zero_le _) s).bind fun ts test t _ htest => ?_
  refine takesAt_eat (fun hy => ?_) (takesAt_pure fun _ hord => ?_)
  · refine (hn t.next).bind fun us consequent u _ _ => takesAt_expect fun _ => ?_
    refine (hn u.next).bind fun vs alternate v _ halternate => takesAt_pure ?_
    have hfits : Fits .conditional (ts ++ (t.current :: (us ++ [u.current]) ++ vs))
        (.conditional test consequent alternate (test.span.through alternate.span)) :=
      htest.join _ halternate rfl fun h => h.sequence_of_level nofun nofun
    simpa using hfits
  · rw [List.append_nil] at hord ⊢
    exact htest.covered hord

theorem takes_assignmentOver (hn : Takes nested (Spelled .assignment)) (hs : Sound .assignment nested) :
    Takes (assignmentOver nested) (Fits .assignment) := by
  intro s
  unfold assignmentOver
  refine ((takes_conditional hn hs).spelled (sound_conditional hs) s).bind fun ts target t _ htarget => ?_
  refine takesAt_symbol? ?_
  split
  next op hop =>
    obtain ⟨sign, hsign, _⟩ := Option.bind_eq_some_iff.mp hop
    cases target.isPlace with
    | false => exact takesAt_error rfl
    | true =>
      refine takesAt_advance (ReaderState.symbol?_eq_some_iff.mp hsign) (by simp)
        ((hn t.next).bind fun us value u _ hvalue => takesAt_pure ?_)
      rw [List.append_nil]
      exact htarget.join [t.current] hvalue rfl fun h => h.sequence_of_level nofun nofun
  next =>
    refine takesAt_pure fun _ hord => ?_
    rw [List.append_nil] at hord ⊢
    exact htarget.covered hord

theorem takes_assignment (depth : Nat) : Takes (assignment depth) (Spelled .assignment) := by
  induction depth with
  | zero => exact fun s => takesAt_fail _
  | succ depth ih =>
    exact Takes.spelled (takes_assignmentOver ih (sound_assignment depth)) (sound_assignment (depth + 1))

/-- The body of an action is read from some of its tokens, which it covers. -/
def ActionTokens (ts : List Token) : Expr → Prop
  | .arrow _ body _ => ∃ us vs, ts = us ++ vs ∧ SpelledSequence vs body
  | _ => True

theorem takes_action (depth : Nat) : Takes (action (assignment depth)) ActionTokens := by
  have hn := takes_assignment depth
  have hs := sound_assignment depth
  intro s
  unfold action
  refine (takes_sequence hn hs s).bind fun ts pattern t _ hpattern => ?_
  refine takesAt_eat (fun _ => ?_) (takesAt_pure ?_)
  · refine (takes_sequence hn hs t.next).bind fun us body u _ hbody => takesAt_pure ?_
    exact ⟨ts ++ [t.current], us, by simp, hbody⟩
  · cases pattern with
    | arrow =>
      have hfree := hpattern.derives.arrowFree Level.noConfusion
      cases hfree
    | _ => trivial

end Reader

end TextAdventure
