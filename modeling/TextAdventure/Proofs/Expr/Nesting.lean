import TextAdventure.Proofs.Expr.Nodes
import TextAdventure.Proofs.Expr.Spans
import TextAdventure.Proofs.Token.Tiling

/-! # Nested spans

Every node of a tree spans its text from the start of one token to the end of the same or a later one. It
has the spans of its children inside its own, one after the other. Parentheses do not disturb this: they are
outside of what is between them, and inside of what it is a part of.
-/
namespace TextAdventure

/-- The second span lies in the first one. -/
structure Span.Encloses (outer inner : Span) : Prop where
  start : outer.start ≤ inner.start
  stop : inner.stop ≤ outer.stop

namespace Expr

/-- Tokens with some characters each, one after the other. -/
structure Apart (ts : List Token) : Prop where
  filled : ∀ t ∈ ts, t.span.start < t.span.stop
  ordered : ts.Pairwise fun t u => t.span.stop ≤ u.span.start

/-- The span goes from the start of one of the tokens to the end of the same or a later one. -/
def Spanned (ts : List Token) (span : Span) : Prop :=
  ∃ t ∈ ts, ∃ u ∈ ts, t.span.start ≤ u.span.start ∧ span = { t.span with stop := u.span.stop }

variable {ts us : List Token} {t u : Token} {a b c : Span}

theorem Apart.left (h : Apart (ts ++ us)) : Apart ts :=
  ⟨fun t ht => h.filled t (List.mem_append_left us ht), (List.pairwise_append.mp h.ordered).1⟩

theorem Apart.right (h : Apart (ts ++ us)) : Apart us :=
  ⟨fun t ht => h.filled t (List.mem_append_right ts ht), (List.pairwise_append.mp h.ordered).2.1⟩

theorem Apart.stop_le_start (h : Apart (ts ++ us)) (ht : t ∈ ts) (hu : u ∈ us) :
    t.span.stop ≤ u.span.start :=
  (List.pairwise_append.mp h.ordered).2.2 t ht u hu

theorem Apart.stop_le_last (h : Apart ts) (ht : t ∈ ts) (hu : u ∈ ts.getLast?) :
    t.span.stop ≤ u.span.stop := by
  obtain ⟨init, rfl⟩ := List.getLast?_eq_some_iff.mp hu
  rcases List.mem_append.mp ht with ht | ht
  · have hstart := h.stop_le_start ht (List.mem_singleton_self u)
    have hfilled := h.filled u List.mem_concat_self
    omega
  · rw [List.mem_singleton.mp ht]

theorem spanned_singleton (t : Token) : Spanned [t] t.span :=
  ⟨t, List.mem_singleton_self t, t, List.mem_singleton_self t, Nat.le_refl _, rfl⟩

theorem Spanned.mono (h : Spanned ts a) (hsub : ts ⊆ us) : Spanned us a := by
  obtain ⟨t, ht, u, hu, hle, rfl⟩ := h
  exact ⟨t, hsub ht, u, hsub hu, hle, rfl⟩

theorem Spanned.start_lt_stop (h : Spanned ts a) (hts : Apart ts) : a.start < a.stop := by
  obtain ⟨t, ht, u, hu, hle, rfl⟩ := h
  exact Nat.lt_of_le_of_lt hle (hts.filled u hu)

theorem Spanned.stop_le_start (ha : Spanned ts a) (hb : Spanned us b) (h : Apart (ts ++ us)) :
    a.stop ≤ b.start := by
  obtain ⟨_, _, t, ht, _, rfl⟩ := ha
  obtain ⟨u, hu, _, _, _, rfl⟩ := hb
  exact h.stop_le_start ht hu

theorem Spanned.stop_le_last (ha : Spanned ts a) (h : Apart ts) (hu : u ∈ ts.getLast?) :
    a.stop ≤ u.span.stop := by
  obtain ⟨_, _, t, ht, _, rfl⟩ := ha
  exact h.stop_le_last ht hu

theorem spanned_last (h : u ∈ ts.getLast?) : Spanned ts u.span :=
  (spanned_singleton u).mono (by simpa using List.mem_of_getLast? h)

theorem Spanned.through (ha : Spanned ts a) (hb : Spanned us b) (h : Apart (ts ++ us)) :
    Spanned (ts ++ us) (a.through b) := by
  have hmax : max b.stop a.stop = b.stop := by
    have hstart := ha.stop_le_start hb h
    have hfilled := hb.start_lt_stop h.right
    omega
  obtain ⟨t, ht, _, _, _, rfl⟩ := ha
  obtain ⟨_, _, u, hu, _, rfl⟩ := hb
  have hle : t.span.start ≤ u.span.start :=
    Nat.le_trans (Nat.le_of_lt (h.left.filled t ht)) (h.stop_le_start ht hu)
  refine ⟨t, List.mem_append_left us ht, u, List.mem_append_right ts hu, hle, ?_⟩
  rw [Span.through, hmax]

theorem encloses_through_left (a b : Span) : (a.through b).Encloses a :=
  ⟨Nat.le_refl _, Nat.le_max_right _ _⟩

theorem Spanned.encloses_through (ha : Spanned ts a) (hc : Spanned us c) (h : Apart (ts ++ us))
    (hstop : c.stop ≤ b.stop) : (a.through b).Encloses c := by
  refine ⟨?_, Nat.le_trans hstop (Nat.le_max_left _ _)⟩
  exact Nat.le_trans (Nat.le_of_lt (ha.start_lt_stop h.left)) (ha.stop_le_start hc h)

/-- The spans of the children lie in that of the expression, one after the other. -/
structure Layered (e : Expr) : Prop where
  encloses : ∀ c ∈ e.children, e.span.Encloses c.span
  ordered : e.children.Pairwise fun c d => c.span.stop ≤ d.span.start

/-- Every node spans some of the tokens and has its children in it. -/
def Nested (ts : List Token) (e : Expr) : Prop :=
  ∀ d, Node d e → Spanned ts d.span ∧ Layered d

/-- Expressions that are nested in the tokens, one after the other. -/
structure InTurn (ts : List Token) (es : List Expr) : Prop where
  nested : ∀ e ∈ es, Nested ts e
  ordered : es.Pairwise fun d e => d.span.stop ≤ e.span.start

variable {e l r : Expr} {es fs : List Expr}

theorem Nested.spanned (h : Nested ts e) : Spanned ts e.span :=
  (h e (.root e)).1

theorem Nested.mono (h : Nested ts e) (hsub : ts ⊆ us) : Nested us e :=
  fun d hd => ⟨(h d hd).1.mono hsub, (h d hd).2⟩

theorem inTurn_nil (ts : List Token) : InTurn ts [] :=
  ⟨nofun, .nil⟩

theorem inTurn_singleton (h : Nested ts e) : InTurn ts [e] :=
  ⟨List.forall_mem_singleton.mpr h, List.pairwise_singleton _ _⟩

theorem InTurn.mono (h : InTurn ts es) (hsub : ts ⊆ us) : InTurn us es :=
  ⟨fun e he => (h.nested e he).mono hsub, h.ordered⟩

theorem InTurn.append (hes : InTurn ts es) (hfs : InTurn us fs) (h : Apart (ts ++ us)) :
    InTurn (ts ++ us) (es ++ fs) := by
  refine ⟨List.forall_mem_append.mpr ⟨?_, ?_⟩, List.pairwise_append.mpr ⟨hes.ordered, hfs.ordered, ?_⟩⟩
  · exact fun e he => (hes.nested e he).mono (List.subset_append_left ts us)
  · exact fun e he => (hfs.nested e he).mono (List.subset_append_right ts us)
  · exact fun d hd e he => (hes.nested d hd).spanned.stop_le_start (hfs.nested e he).spanned h

theorem InTurn.nested_of_children (h : InTurn ts e.children) (hspan : Spanned ts e.span)
    (hencloses : ∀ c ∈ e.children, e.span.Encloses c.span) : Nested ts e := by
  intro d hd
  cases hd with
  | root => exact ⟨hspan, hencloses, h.ordered⟩
  | inside hc hd => exact h.nested _ hc d hd

theorem nested_through (h : Apart (ts ++ us)) (ha : Spanned ts a) (hb : Spanned us b)
    (hspan : e.span = a.through b) (hchildren : InTurn (ts ++ us) e.children)
    (hbetween : ∀ c ∈ e.children, c.span = a ∨ Spanned us c.span ∧ c.span.stop ≤ b.stop) :
    Nested (ts ++ us) e := by
  refine hchildren.nested_of_children (hspan ▸ ha.through hb h) fun c hc => ?_
  rw [hspan]
  rcases hbetween c hc with hc | ⟨hc, hstop⟩
  · rw [hc]
    exact encloses_through_left a b
  · exact ha.encloses_through hc h hstop

theorem nested_through_last (h : Apart (ts ++ us)) (ha : Spanned ts a) (hu : u ∈ us.getLast?)
    (hspan : e.span = a.through u.span) (hchildren : InTurn (ts ++ us) e.children)
    (hbetween : ∀ c ∈ e.children, c.span = a ∨ Spanned us c.span) : Nested (ts ++ us) e :=
  nested_through h ha (spanned_last hu) hspan hchildren fun c hc =>
    (hbetween c hc).imp_right fun hc => ⟨hc, hc.stop_le_last h.right hu⟩

theorem nested_join (h : Apart (ts ++ us)) (hl : Nested ts l) (hr : Nested us r)
    (hspan : e.span = l.span.through r.span) (hchildren : e.children = [l, r]) : Nested (ts ++ us) e := by
  refine nested_through h hl.spanned hr.spanned hspan ?_ ?_
  · rw [hchildren]
    exact (inTurn_singleton hl).append (inTurn_singleton hr) h
  · rw [hchildren]
    exact List.forall_mem_cons.mpr
      ⟨.inl rfl, List.forall_mem_singleton.mpr (.inr ⟨hr.spanned, Nat.le_refl _⟩)⟩

/-- What is read is nested in its tokens if these are apart. -/
def Nests (ts : List Token) (e : Expr) : Prop :=
  Apart ts → Nested ts e

def NestInTurn (ts : List Token) (es : List Expr) : Prop :=
  Apart ts → InTurn ts es

theorem Nests.append (h : Nests ts e) (us : List Token) : Nests (ts ++ us) e :=
  fun hts => (h hts.left).mono (List.subset_append_left ts us)

theorem Nests.prepend (ts : List Token) (h : Nests us e) : Nests (ts ++ us) e :=
  fun hts => (h hts.right).mono (List.subset_append_right ts us)

theorem NestInTurn.append (h : NestInTurn ts es) (us : List Token) : NestInTurn (ts ++ us) es :=
  fun hts => (h hts.left).mono (List.subset_append_left ts us)

theorem NestInTurn.prepend (ts : List Token) (h : NestInTurn us es) : NestInTurn (ts ++ us) es :=
  fun hts => (h hts.right).mono (List.subset_append_right ts us)

theorem NestInTurn.concat (h : NestInTurn ts es) (he : Nests us e) : NestInTurn (ts ++ us) (es ++ [e]) :=
  fun hts => (h hts.left).append (inTurn_singleton (he hts.right)) hts

theorem nests_leaf {token : Token} (hspan : e.span = token.span) (hchildren : e.children = []) :
    Nests [token] e := by
  intro _
  have hnone : InTurn [token] e.children := hchildren ▸ inTurn_nil _
  refine hnone.nested_of_children (hspan ▸ spanned_singleton token) ?_
  rw [hchildren]
  exact nofun

theorem Nests.join {l r : Expr} {vs : List Token} (hl : Nests ts l) (us : List Token) (hr : Nests vs r)
    (hspan : e.span = l.span.through r.span) (hchildren : e.children = [l, r]) :
    Nests (ts ++ (us ++ vs)) e :=
  fun hts => nested_join hts (hl hts.left) (hr.prepend us hts.right) hspan hchildren

theorem exists_last {s v : ReaderState} (h : s.Passes us v) (hus : us ≠ []) :
    ∃ u ∈ us.getLast?, v.previous = u.span :=
  ⟨us.getLast hus, List.getLast?_eq_some_getLast hus, h.previous_eq (List.getLast?_eq_some_getLast hus)⟩

theorem nests_through {token : Token} {s v : ReaderState} (hpass : s.Passes us v) (hus : us ≠ [])
    (hspan : e.span = token.span.through v.previous) (hchildren : NestInTurn us e.children) :
    Nests (token :: us) e := by
  intro hts
  have hts : Apart ([token] ++ us) := hts
  obtain ⟨u, hu, hprevious⟩ := exists_last hpass hus
  have hnested := hchildren hts.right
  refine nested_through_last hts (spanned_singleton token) hu (by rw [hspan, hprevious]) ?_ ?_
  · exact hnested.mono (List.subset_append_right [token] us)
  · exact fun c hc => .inr (hnested.nested c hc).spanned

theorem Nests.extend {first : Expr} {rest : List Expr} {s v : ReaderState} (h : Nests ts first)
    (hpass : s.Passes us v) (hus : us ≠ []) (hspan : e.span = first.span.through v.previous)
    (hchildren : e.children = first :: rest) (hrest : NestInTurn us rest) : Nests (ts ++ us) e := by
  intro hts
  obtain ⟨u, hu, hprevious⟩ := exists_last hpass hus
  have hfirst := h hts.left
  have hnested := hrest hts.right
  refine nested_through_last hts hfirst.spanned hu (by rw [hspan, hprevious]) ?_ ?_
  · rw [hchildren]
    exact (inTurn_singleton hfirst).append hnested hts
  · rw [hchildren]
    exact List.forall_mem_cons.mpr ⟨.inl rfl, fun c hc => .inr (hnested.nested c hc).spanned⟩

end Expr

namespace Reader

open TextAdventure.Expr

variable {α : Type} {nested : Reader Expr} {s t v : ReaderState} {ts us : List Token} {e : Expr}
  {item : Reader α} {f : α → Expr}

theorem nests_nextItem (hitem : Takes item fun ts a => Nests ts (f a)) (close : Symbol) {as : List α}
    (h : NestInTurn ts (as.map f)) :
    Takes (nextItem close item as)
      (Turn (fun ts as => NestInTurn ts (as.map f)) (fun ts as => NestInTurn ts (as.map f)) ts as) := by
  intro s
  unfold nextItem
  refine takesAt_eat (fun _ => takesAt_symbol? ?_) (takesAt_pure (h.append []))
  split
  · exact takesAt_pure (h.append [s.current])
  · refine (hitem s.next).bind fun us a t _ ha => takesAt_pure ?_
    have hmore : NestInTurn (ts ++ (s.current :: us)) (as.map f ++ [f a]) :=
      h.concat (ha.prepend [s.current])
    simpa [Turn] using hmore

/-- The items are read with the closing symbol, which is the last token. -/
theorem nests_separated (hitem : Takes item fun ts a => Nests ts (f a)) (close : Symbol) :
    Takes (separated close item) fun ts as => ts ≠ [] ∧ NestInTurn ts (as.map f) := by
  intro s
  unfold separated
  refine takesAt_eat (fun _ => takesAt_pure ⟨by simp, fun _ => inTurn_nil _⟩) ?_
  refine (hitem s).bind fun ts a t _ ha => ?_
  have hfirst : NestInTurn ts ([a].map f) := fun hts => inTurn_singleton (ha hts)
  refine (takes_loop (fun _ _ h => nests_nextItem hitem close h) (fun _ _ h => h) hfirst t).bind ?_
  intro us as u _ has
  refine takesAt_expect fun _ => takesAt_pure ⟨by simp, ?_⟩
  simpa using has.append [u.current]

/-- The first expression of a sequence and those after it, with the tokens of the latter. -/
def StartsSequence (first : Expr) (us : List Token) (es : List Expr) : Prop :=
  ∃ rest, es = first :: rest ∧ NestInTurn us rest ∧ (rest ≠ [] → us ≠ [])

theorem nests_nextInSequence (hn : Takes nested Nests) {first : Expr} {es : List Expr}
    (h : StartsSequence first us es) :
    Takes (nextInSequence nested es) (Turn (StartsSequence first) (StartsSequence first) us es) := by
  obtain ⟨rest, rfl, hrest, hne⟩ := h
  intro s
  unfold nextInSequence
  refine takesAt_eat (fun _ => takesAt_current ?_)
    (takesAt_pure ⟨rest, rfl, hrest.append [], by simpa using hne⟩)
  split
  iterate 4 exact takesAt_pure ⟨rest, rfl, hrest.append [s.current], by simp⟩
  refine (hn s.next).bind fun vs e t _ he => takesAt_pure ?_
  have hmore : NestInTurn (us ++ (s.current :: vs)) (rest ++ [e]) := hrest.concat (he.prepend [s.current])
  exact ⟨rest ++ [e], rfl, by simpa using hmore, by simp⟩

theorem nests_sequence (hn : Takes nested Nests) : Takes (sequence nested) Nests := by
  intro s
  unfold sequence
  refine (hn s).bind fun ts first t _ hfirst => ?_
  have hstart : StartsSequence first [] [first] := ⟨[], rfl, fun _ => inTurn_nil _, by simp⟩
  refine (takes_loop (fun _ _ h => nests_nextInSequence hn h) (fun _ _ h => h) hstart t).bind ?_
  rintro us _ v hpass ⟨rest, rfl, hrest, hne⟩
  cases rest with
  | nil => exact takesAt_pure (by simpa using hfirst.append us)
  | cons second rest =>
    obtain ⟨u, hu, hprevious⟩ := exists_last hpass (hne (List.cons_ne_nil _ _))
    refine takesAt_spanFrom (takesAt_pure ?_)
    rw [List.append_nil]
    intro hts
    have hrest := hrest hts.right
    have hall := (inTurn_singleton (hfirst hts.left)).append hrest hts
    refine nested_through_last hts (hfirst hts.left).spanned hu (by rw [hprevious]; rfl) hall ?_
    exact List.forall_mem_cons.mpr ⟨.inl rfl, fun c hc => .inr (hrest.nested c hc).spanned⟩

theorem nests_literal {value : Literal} {k : TokenKind} (hk : s.current.kind = k) (hne : k ≠ .eof) :
    TakesAt s (literal value) Nests := by
  unfold literal
  exact takesAt_current (takesAt_advance hk hne (takesAt_pure (nests_leaf rfl rfl)))

theorem nests_objectEntry (hn : Takes nested Nests) :
    Takes (objectEntry nested) fun ts entry => Nests ts entry.2 := by
  intro s
  unfold objectEntry
  refine (passing_objectKey s).bind fun ks key t _ _ => takesAt_expect fun _ => ?_
  refine (hn t.next).bind fun us e u _ he => takesAt_pure ?_
  have hentry : Nests (ks ++ [t.current] ++ us) e := he.prepend (ks ++ [t.current])
  simpa using hentry

theorem nests_primary (hn : Takes nested Nests) : Takes (primary nested) Nests := by
  intro s
  unfold primary
  refine takesAt_current ?_
  split
  next h => exact nests_literal h (by simp)
  next h => exact nests_literal h (by simp)
  next h => exact nests_literal h (by simp)
  next h => exact nests_literal h (by simp)
  next h => exact nests_literal h (by simp)
  next h => exact takesAt_advance h (by simp) (takesAt_pure (nests_leaf rfl rfl))
  next h =>
    refine takesAt_advance h (by simp) ((nests_sequence hn s.next).bind fun ts e t _ he => ?_)
    refine takesAt_expect fun _ => takesAt_pure ?_
    exact (he.append [t.current]).prepend [s.current]
  next h =>
    have hitem : Takes nested fun ts e => Nests ts (id e) := hn
    refine takesAt_advance h (by simp) ((nests_separated hitem .rightBracket s.next).bind ?_)
    rintro us es t hpass ⟨hus, hes⟩
    refine takesAt_spanFrom (takesAt_pure ?_)
    rw [List.append_nil]
    exact nests_through hpass hus rfl (by simpa using hes : NestInTurn us es)
  next h =>
    refine takesAt_advance h (by simp) ((nests_separated (nests_objectEntry hn) .rightBrace s.next).bind ?_)
    rintro us entries t hpass ⟨hus, hentries⟩
    refine takesAt_spanFrom (takesAt_pure ?_)
    rw [List.append_nil]
    exact nests_through hpass hus rfl hentries
  next => exact takesAt_fail _
  next => exact takesAt_fail _

theorem nests_postfixStep (hn : Takes nested Nests) (h : Nests ts e) :
    Takes (postfixStep nested e) (Turn Nests Nests ts e) := by
  intro s
  unfold postfixStep
  refine takesAt_symbol? ?_
  split
  next hy =>
    have hitem : Takes nested fun ts e => Nests ts (id e) := hn
    refine takesAt_advance (ReaderState.symbol?_eq_some_iff.mp hy) (by simp)
      ((nests_separated hitem .rightParen s.next).bind ?_)
    rintro us args t hpass ⟨-, hargs⟩
    refine takesAt_spanFrom (takesAt_pure ?_)
    have hpass : s.Passes (s.current :: us) t := (s.passes_symbol hy).trans hpass
    have hrest : NestInTurn us args := by simpa using hargs
    rw [List.append_nil]
    exact h.extend hpass (List.cons_ne_nil _ _) rfl rfl (hrest.prepend [s.current])
  next hy =>
    refine takesAt_advance (ReaderState.symbol?_eq_some_iff.mp hy) (by simp) (takesAt_current ?_)
    split
    next name hk =>
      refine takesAt_advance hk (by simp) (takesAt_spanFrom (takesAt_pure ?_))
      have hpass := (s.passes_symbol hy).trans (s.next.passes_next hk (by simp))
      exact h.extend hpass (List.cons_ne_nil _ _) rfl rfl fun _ => inTurn_nil _
    next => exact takesAt_fail _
  next hy =>
    refine takesAt_advance (ReaderState.symbol?_eq_some_iff.mp hy) (by simp)
      ((hn s.next).bind fun us key t hus hkey => ?_)
    refine takesAt_expect fun hy' => takesAt_spanFrom (takesAt_pure ?_)
    have hpass := (s.passes_symbol hy).trans (hus.trans (t.passes_symbol hy'))
    have hrest : NestInTurn us [key] := fun hts => inTurn_singleton (hkey hts)
    exact h.extend hpass (List.cons_ne_nil _ _) rfl rfl ((hrest.append [t.current]).prepend [s.current])
  next => exact takesAt_pure (h.append [])

theorem nests_postfixExpr (hn : Takes nested Nests) : Takes (postfixExpr nested) Nests := by
  intro s
  unfold postfixExpr
  refine (nests_primary hn s).bind fun ts e t _ he => ?_
  exact takes_loop (fun _ _ h => nests_postfixStep hn h) (fun _ _ h => h) he t

theorem nests_prefixed {ops : List (UnaryOp × Span)} {stop : Span} (h : PrefixTokens ts ops)
    (he : Nests us e) (hstop : ∃ u ∈ us.getLast?, stop = u.span) :
    Nests (ts ++ us) (ops.foldr (fun op e => .unary op.1 e (op.2.through stop)) e) := by
  induction h with
  | nil => exact he
  | @cons t op ts ops hop _ ih =>
    intro hts
    have hts : Apart ([t] ++ (ts ++ us)) := hts
    obtain ⟨u, hu, rfl⟩ := hstop
    have hlast : u ∈ (ts ++ us).getLast? := by
      rw [List.getLast?_append, hu]
      rfl
    have hoperand := ih hts.right
    change Nested ([t] ++ (ts ++ us)) _
    rw [List.foldr_cons]
    refine nested_through_last hts (spanned_singleton t) hlast (by rw [← hop.2]; rfl) ?_ ?_
    · exact (inTurn_singleton hoperand).mono (List.subset_append_right [t] (ts ++ us))
    · exact List.forall_mem_singleton.mpr (.inr hoperand.spanned)

theorem nests_unary (hn : Takes nested Nests) : Takes (unary nested) Nests := by
  intro s
  unfold unary prefixOps
  refine (takes_loop (fun _ _ h => takes_nextPrefix h) (fun _ _ h => h)
    (List.Forall₂.nil : PrefixTokens [] []) s).bind fun ts ops t _ hops => ?_
  refine (nests_postfixExpr hn t).bind fun us e u hpass he => takesAt_get (takesAt_pure ?_)
  rw [List.append_nil]
  intro hts
  have hus : us ≠ [] := by
    obtain ⟨token, htoken, _⟩ := (he hts.right).spanned
    exact List.ne_nil_of_mem htoken
  exact nests_prefixed hops he (exists_last hpass hus) hts

theorem nests_nextOperand {operand : Reader Expr} (ho : Takes operand Nests)
    (ops : List (Symbol × Operator)) (h : Nests ts e) :
    Takes (nextOperand ops operand e) (Turn Nests Nests ts e) := by
  intro s
  unfold nextOperand
  refine takesAt_symbol? ?_
  split
  next op hop =>
    obtain ⟨sign, hsign, _⟩ := Option.bind_eq_some_iff.mp hop
    refine takesAt_advance (ReaderState.symbol?_eq_some_iff.mp hsign) (by simp)
      ((ho s.next).bind fun us right t _ hright => takesAt_pure ?_)
    rw [List.append_nil]
    exact h.join [s.current] hright (by cases op <;> rfl) (by cases op <;> rfl)
  next => exact takesAt_pure (h.append [])

theorem nests_operators {operand : Reader Expr} (ho : Takes operand Nests)
    (levels : List (List (Symbol × Operator))) : Takes (operators operand levels) Nests := by
  induction levels with
  | nil => exact ho
  | cons ops levels ih =>
    intro s
    unfold operators leftAssociative
    refine (ih s).bind fun ts e t _ he => ?_
    exact takes_loop (fun _ _ h => nests_nextOperand ih ops h) (fun _ _ h => h) he t

theorem nests_conditional (hn : Takes nested Nests) : Takes (conditional nested) Nests := by
  intro s
  unfold conditional
  refine (nests_operators (nests_unary hn) operatorLevels s).bind fun ts test t _ htest => ?_
  refine takesAt_eat (fun _ => ?_) (takesAt_pure (htest.append []))
  refine (hn t.next).bind fun us consequent u _ hconsequent => takesAt_expect fun _ => ?_
  refine (hn u.next).bind fun vs alternate v _ halternate => takesAt_pure ?_
  have hnests : Nests (ts ++ (t.current :: us ++ (u.current :: vs)))
      (.conditional test consequent alternate (test.span.through alternate.span)) := by
    intro hts
    have htest := htest hts.left
    have hconsequent := hconsequent.prepend [t.current] hts.right.left
    have halternate := halternate.prepend [u.current] hts.right.right
    have hbefore := hconsequent.spanned.stop_le_start halternate.spanned hts.right
    have hbranches := (inTurn_singleton hconsequent).append (inTurn_singleton halternate) hts.right
    refine nested_through hts htest.spanned (hbranches.nested alternate (by simp)).spanned rfl
      ((inTurn_singleton htest).append hbranches hts) ?_
    have hfilled := halternate.spanned.start_lt_stop hts.right.right
    refine List.forall_mem_cons.mpr ⟨.inl rfl, fun c hc => .inr ⟨(hbranches.nested c hc).spanned, ?_⟩⟩
    rcases List.mem_cons.mp hc with rfl | hc
    · omega
    · rw [List.mem_singleton.mp hc]
  simpa using hnests

theorem nests_assignmentOver (hn : Takes nested Nests) : Takes (assignmentOver nested) Nests := by
  intro s
  unfold assignmentOver
  refine (nests_conditional hn s).bind fun ts target t _ htarget => takesAt_symbol? ?_
  split
  next op hop =>
    obtain ⟨sign, hsign, _⟩ := Option.bind_eq_some_iff.mp hop
    cases target.isPlace with
    | false => exact takesAt_error rfl
    | true =>
      refine takesAt_advance (ReaderState.symbol?_eq_some_iff.mp hsign) (by simp)
        ((hn t.next).bind fun us value u _ hvalue => takesAt_pure ?_)
      rw [List.append_nil]
      exact htarget.join [t.current] hvalue rfl rfl
  next => exact takesAt_pure (htarget.append [])

theorem nests_assignment (depth : Nat) : Takes (assignment depth) Nests := by
  induction depth with
  | zero => exact fun s => takesAt_fail _
  | succ depth ih => exact nests_assignmentOver ih

theorem nests_action (hn : Takes nested Nests) : Takes (action nested) Nests := by
  intro s
  unfold action
  refine (nests_sequence hn s).bind fun ts pattern t _ hpattern => ?_
  refine takesAt_eat (fun _ => ?_) (takesAt_pure (hpattern.append []))
  refine (nests_sequence hn t.next).bind fun us body u _ hbody => takesAt_pure ?_
  rw [List.append_nil]
  exact hpattern.join [t.current] hbody rfl rfl

end Reader

namespace Position

theorem prefix_of_byteSize_le {cs ds es : List Char} (hcs : cs <+: es) (hds : ds <+: es)
    (hle : byteSize cs ≤ byteSize ds) : cs <+: ds := by
  rcases List.prefix_or_prefix_of_prefix hcs hds with h | ⟨rest, rfl⟩
  · exact h
  · cases rest with
    | nil => exact (List.append_nil ds).symm ▸ List.prefix_refl ds
    | cons c rest =>
      have hpos := byteSize_pos (List.cons_ne_nil c rest)
      rw [byteSize_append] at hle
      omega

end Position

/-- The span goes over some characters of the text and has the line and the column of the first of them. It
starts where a token does and stops where one does. -/
structure Span.Locates (span : Span) (source : String) : Prop where
  piece : ∃ before piece after, source.toList = before ++ piece ++ after ∧ piece ≠ [] ∧
    span = .ofPiece before piece
  start : ∃ t ∈ Token.scan source, t.kind ≠ .eof ∧ t.span.start = span.start
  stop : ∃ t ∈ Token.scan source, t.kind ≠ .eof ∧ t.span.stop = span.stop

namespace Expr

variable {source : String} {d e : Expr} {ts : List Token} {span : Span}

open Position in
theorem Spanned.locates (h : Spanned ts span) (hts : Apart ts) (hsub : ts ⊆ Token.scan source)
    (heof : ∀ t ∈ ts, t.kind ≠ .eof) : span.Locates source := by
  have hlt := h.start_lt_stop hts
  obtain ⟨t, ht, u, hu, hle, rfl⟩ := h
  refine ⟨?_, ⟨t, hsub ht, heof t ht, rfl⟩, ⟨u, hsub hu, heof u hu, rfl⟩⟩
  have htiles := Token.tiles_scanFrom [] source.toList
  obtain ⟨before, piece, rest, hsource, htspan, -⟩ := htiles.exists_ofPiece t (hsub ht)
  obtain ⟨before', piece', rest', hsource', huspan, -⟩ := htiles.exists_ofPiece u (hsub hu)
  rw [List.nil_append] at hsource hsource'
  rw [htspan, huspan] at hle hlt
  have hbefore : before <+: source.toList := ⟨piece ++ rest, by rw [hsource, List.append_assoc]⟩
  have hstop : before' ++ piece' <+: source.toList := ⟨rest', hsource'.symm⟩
  obtain ⟨middle, hmiddle⟩ := prefix_of_byteSize_le hbefore hstop (Nat.le_of_lt hlt)
  refine ⟨before, middle, rest', by rw [hmiddle, hsource'], ?_, ?_⟩
  · rintro rfl
    rw [List.append_nil] at hmiddle
    rw [hmiddle] at hlt
    exact Nat.lt_irrefl _ hlt
  · rw [htspan, huspan, Span.ofPiece, Span.ofPiece, Span.ofPiece, hmiddle]

theorem apart_of_scan {us : List Token} (h : Token.scan source = ts ++ us)
    (heof : ∀ t ∈ ts, t.kind ≠ .eof) : Apart ts := by
  have htiles := Token.tiles_scanFrom [] source.toList
  have hordered : (Token.scan source).Pairwise fun t u => t.span.stop ≤ u.span.start := htiles.pairwise
  obtain ⟨tokens, htokens, hfilled⟩ := htiles.exists_eof
  have hscan : Token.scan source = tokens ++ [⟨.eof, .ofPiece ([] ++ source.toList) []⟩] := htokens
  refine ⟨fun t ht => ?_, ?_⟩
  · have hmem : t ∈ Token.scan source := h ▸ List.mem_append_left us ht
    rw [hscan] at hmem
    rcases List.mem_append.mp hmem with hmem | hmem
    · exact (hfilled t hmem).2
    · exact absurd (congrArg Token.kind (List.mem_singleton.mp hmem)) (heof t ht)
  · rw [h] at hordered
    exact (List.pairwise_append.mp hordered).1

/-- The spans of a tree that is read from a text nest. Each node has one that goes from the start of a token
to the end of a token, with the spans of its children inside it, one after the other. -/
theorem spans_nest (h : parse source = .ok e) (hd : Node d e) :
    d.span.Locates source ∧ (∀ c ∈ d.children, d.span.Encloses c.span) ∧
      d.children.Pairwise fun c c' => c.span.stop ≤ c'.span.start := by
  obtain ⟨t, hrun⟩ := parseWithin_eq_ok_iff.mp h
  obtain ⟨_, haction, _⟩ := Reader.run_whole_eq_ok_iff.mp hrun
  have hsound := Reader.sound_action (Reader.sound_assignment (Token.scan source).length)
  have hnests := Reader.nests_action (Reader.nests_assignment (Token.scan source).length)
  obtain ⟨ts, hpass, hderives, hnested⟩ :=
    (hnests ⟨Token.scan source, .default⟩).and_reads (hsound _) e t haction
  have heof : ∀ t ∈ ts, t.kind ≠ .eof := by
    intro t ht hkind
    have hterminal := derives_terminal hderives t.kind (List.mem_map_of_mem ht)
    rw [hkind] at hterminal
    exact hterminal
  have hscan : Token.scan source = ts ++ t.tokens := hpass.tokens
  have hts := apart_of_scan hscan heof
  obtain ⟨hspanned, hlayered⟩ := hnested hts d hd
  have hsub : ts ⊆ Token.scan source := hscan ▸ List.subset_append_left ts t.tokens
  exact ⟨hspanned.locates hts hsub heof, hlayered.encloses, hlayered.ordered⟩

/-- The opening parenthesis is left out, the closing one is inside of the whole. -/
theorem spans_nest_parens : ∃ e, parse "(a;\n b.f(c))[-(d)] = 'é'" = .ok e ∧ e.span = ⟨1, 25, 1, 2⟩ ∧
    e.span.Locates "(a;\n b.f(c))[-(d)] = 'é'" ∧ (∀ c ∈ e.children, e.span.Encloses c.span) ∧
      e.children.Pairwise fun c c' => c.span.stop ≤ c'.span.start := by
  have hspan : (parse "(a;\n b.f(c))[-(d)] = 'é'").toOption.map Expr.span = some ⟨1, 25, 1, 2⟩ := by
    decide +kernel
  cases hparse : parse "(a;\n b.f(c))[-(d)] = 'é'" with
  | error error =>
    rw [hparse] at hspan
    cases hspan
  | ok e =>
    rw [hparse] at hspan
    exact ⟨e, rfl, Option.some.inj hspan, spans_nest hparse (.root e)⟩

end Expr

end TextAdventure
