import TextAdventure.Proofs.Expr.Soundness

/-! # How deep assignments nest

A nested assignment is read only after a token of the expression around it, so a bound on the depth of
nesting that is no less than the number of tokens is never met: no such bound changes what is read, nor
the error if there is one.
-/
namespace TextAdventure

/-- The last token is the end of the source. -/
def ReaderState.Closed (s : ReaderState) : Prop :=
  ∃ before, s.kinds = before ++ [.eof]

/-- The state is closed and has no more tokens left than another one. -/
structure ReaderState.Within (t s : ReaderState) : Prop where
  closed : t.Closed
  length_le : t.tokens.length ≤ s.tokens.length

namespace ReaderState

variable {s t u : ReaderState} {k : TokenKind}

theorem Closed.within (h : s.Closed) : s.Within s :=
  ⟨h, Nat.le_refl _⟩

theorem Within.trans (h : u.Within t) (h' : t.Within s) : u.Within s :=
  ⟨h.closed, Nat.le_trans h.length_le h'.length_le⟩

theorem Closed.length_pos (h : s.Closed) : 0 < s.tokens.length := by
  obtain ⟨before, hs⟩ := h
  rw [s.length_tokens, hs, List.length_append]
  simp

theorem Closed.next (h : s.Closed) (hk : s.kinds = k :: s.next.kinds) (hne : k ≠ .eof) :
    s.next.Closed := by
  obtain ⟨before, hs⟩ := h
  rw [hk] at hs
  cases before with
  | nil => exact absurd (List.cons.inj hs).1 hne
  | cons k' before => exact ⟨before, (List.cons.inj hs).2⟩

theorem length_next (hk : s.kinds = k :: s.next.kinds) :
    s.tokens.length = s.next.tokens.length + 1 := by
  rw [s.length_tokens, s.next.length_tokens, hk, List.length_cons]

end ReaderState

namespace Reader

variable {α β : Type} {m m' : Reader α} {f f' : α → Reader β} {s u : ReaderState} {a : α}
  {k : TokenKind} {y : Symbol} {n : Nat}

/-- The two readers do the same, and leave no more tokens than there were. -/
def SameAt (s : ReaderState) (m m' : Reader α) : Prop :=
  m.run s = m'.run s ∧ ∀ a t, m.run s = .ok (a, t) → t.Within s

/-- The same from every closed state with at most `n` tokens. -/
def Same (n : Nat) (m m' : Reader α) : Prop :=
  ∀ s : ReaderState, s.Closed → s.tokens.length ≤ n → SameAt s m m'

theorem SameAt.bind (hm : SameAt s m m') (hf : ∀ a t, t.Within s → SameAt t (f a) (f' a)) :
    SameAt s (m >>= f) (m' >>= f') := by
  obtain ⟨heq, hwithin⟩ := hm
  constructor
  · rw [StateT.run_bind, StateT.run_bind, ← heq]
    cases hrun : m.run s with
    | error e => rfl
    | ok r => exact (hf r.1 r.2 (hwithin r.1 r.2 hrun)).1
  · intro b t h
    obtain ⟨a, u, ha, hb⟩ := run_bind_eq_ok_iff.mp h
    have hu := hwithin a u ha
    exact ((hf a u hu).2 b t hb).trans hu

theorem sameAt_pure (hs : s.Closed) (a : α) : SameAt s (pure a) (pure a) := by
  refine ⟨rfl, ?_⟩
  intro a' t h
  cases h
  exact hs.within

theorem sameAt_error {e : SyntaxError} (h : m.run s = .error e) : SameAt s m m := by
  refine ⟨rfl, ?_⟩
  intro a t hrun
  rw [h] at hrun
  cases hrun

theorem sameAt_fail (message : String) : SameAt s (fail message : Reader α) (fail message) :=
  sameAt_error rfl

theorem sameAt_of_run_error {e : SyntaxError} (h : m.run s = .error e) :
    SameAt s (m >>= f) (m >>= f') := by
  constructor
  · rw [StateT.run_bind, StateT.run_bind, h]
    rfl
  · intro b t hrun
    rw [StateT.run_bind, h] at hrun
    cases hrun

theorem sameAt_of_run (hm : m.run s = .ok (a, u)) (hu : u.Within s)
    (hf : SameAt u (f a) (f' a)) : SameAt s (m >>= f) (m >>= f') := by
  constructor
  · rw [run_bind_of_ok hm, run_bind_of_ok hm]
    exact hf.1
  · intro b t h
    rw [run_bind_of_ok hm] at h
    exact (hf.2 b t h).trans hu

theorem sameAt_current {f f' : Token → Reader β} (hs : s.Closed)
    (hf : SameAt s (f s.current) (f' s.current)) : SameAt s (current >>= f) (current >>= f') :=
  sameAt_of_run run_current hs.within hf

theorem sameAt_symbol? {f f' : Option Symbol → Reader β} (hs : s.Closed)
    (hf : SameAt s (f s.symbol?) (f' s.symbol?)) : SameAt s (symbol? >>= f) (symbol? >>= f') :=
  sameAt_of_run run_symbol? hs.within hf

theorem sameAt_get {f f' : ReaderState → Reader β} (hs : s.Closed) (hf : SameAt s (f s) (f' s)) :
    SameAt s (get >>= f) (get >>= f') :=
  sameAt_of_run rfl hs.within hf

theorem sameAt_spanFrom {start : Span} {f f' : Span → Reader β} (hs : s.Closed)
    (hf : ∀ span, SameAt s (f span) (f' span)) :
    SameAt s (spanFrom start >>= f) (spanFrom start >>= f') :=
  sameAt_of_run (run_spanFrom start) hs.within (hf _)

theorem sameAt_of_run_next (hs : s.Closed) (hm : m.run s = .ok (a, s.next))
    (hk : s.kinds = k :: s.next.kinds) (hne : k ≠ .eof)
    (hf : s.next.Closed → s.next.tokens.length < s.tokens.length → SameAt s.next (f a) (f' a)) :
    SameAt s (m >>= f) (m >>= f') := by
  have hclosed := hs.next hk hne
  have hlt : s.next.tokens.length < s.tokens.length := by
    rw [s.length_next hk]
    exact Nat.lt_succ_self _
  exact sameAt_of_run hm ⟨hclosed, Nat.le_of_lt hlt⟩ (hf hclosed hlt)

theorem sameAt_advance {f f' : Unit → Reader β} (hs : s.Closed) (hk : s.current.kind = k)
    (hne : k ≠ .eof)
    (hf : s.next.Closed → s.next.tokens.length < s.tokens.length → SameAt s.next (f ()) (f' ())) :
    SameAt s (advance >>= f) (advance >>= f') :=
  sameAt_of_run_next hs run_advance (s.kinds_of_current hk hne) hne hf

theorem sameAt_eat {f f' : Bool → Reader β} (hs : s.Closed)
    (htrue : s.next.Closed → s.next.tokens.length < s.tokens.length →
      SameAt s.next (f true) (f' true))
    (hfalse : SameAt s (f false) (f' false)) : SameAt s (eat y >>= f) (eat y >>= f') := by
  by_cases hy : s.symbol? = some y
  · exact sameAt_of_run_next hs (run_eat_of_eq hy) (s.kinds_of_symbol? hy) (by simp) htrue
  · exact sameAt_of_run (run_eat_of_ne hy) hs.within hfalse

theorem sameAt_expect {f f' : Unit → Reader β} (hs : s.Closed)
    (hf : s.next.Closed → s.next.tokens.length < s.tokens.length → SameAt s.next (f ()) (f' ())) :
    SameAt s (expect y >>= f) (expect y >>= f') := by
  by_cases hy : s.symbol? = some y
  · exact sameAt_of_run_next hs (run_expect_of_eq hy) (s.kinds_of_symbol? hy) (by simp) hf
  · obtain ⟨e, he⟩ := run_expect_of_ne hy
    exact sameAt_of_run_error he

theorem Same.at_within {t : ReaderState} (h : Same n m m') (ht : t.Within s)
    (hs : s.tokens.length ≤ n) : SameAt t m m' :=
  h t ht.closed (Nat.le_trans ht.length_le hs)

theorem same_loopFor {step step' : α → Reader (Option α)} (h : ∀ a, Same n (step a) (step' a))
    (rounds : Nat) (a : α) : Same n (loopFor step rounds a) (loopFor step' rounds a) := by
  induction rounds generalizing a with
  | zero => exact fun s hs _ => sameAt_pure hs a
  | succ rounds ih =>
    intro s hs hn
    rw [loopFor, loopFor]
    refine (h a s hs hn).bind fun r t ht => ?_
    cases r with
    | some b => exact (ih b).at_within ht hn
    | none => exact sameAt_pure ht.closed a

theorem same_loop {step step' : α → Reader (Option α)} (h : ∀ a, Same n (step a) (step' a))
    (a : α) : Same n (loop step a) (loop step' a) := by
  intro s hs hn
  exact sameAt_get hs (same_loopFor h s.tokens.length a s hs hn)

theorem same_nextItem {item item' : Reader α} (h : Same n item item') (close : Symbol)
    (items : List α) : Same n (nextItem close item items) (nextItem close item' items) := by
  intro s hs hn
  unfold nextItem
  refine sameAt_eat hs (fun hnext hlt => ?_) (sameAt_pure hs _)
  refine sameAt_symbol? hnext ?_
  split
  · exact sameAt_pure hnext _
  · exact (h s.next hnext (by omega)).bind fun a t ht => sameAt_pure ht.closed _

theorem same_separated {item item' : Reader α} (h : Same n item item') (close : Symbol) :
    Same n (separated close item) (separated close item') := by
  intro s hs hn
  unfold separated
  refine sameAt_eat hs (fun hnext _ => sameAt_pure hnext _) ?_
  refine (h s hs hn).bind fun first t ht => ?_
  refine ((same_loop (same_nextItem h close) [first]).at_within ht hn).bind fun items u hu => ?_
  exact sameAt_expect hu.closed fun hnext _ => sameAt_pure hnext _

variable {nested nested' : Reader Expr}

theorem same_nextInSequence (h : Same n nested nested') (items : List Expr) :
    Same n (nextInSequence nested items) (nextInSequence nested' items) := by
  intro s hs hn
  unfold nextInSequence
  refine sameAt_eat hs (fun hnext hlt => ?_) (sameAt_pure hs _)
  refine sameAt_current hnext ?_
  split
  iterate 4 exact sameAt_pure hnext _
  exact (h s.next hnext (by omega)).bind fun e t ht => sameAt_pure ht.closed _

theorem sameAt_sequenceFrom (hs : s.Closed) (start : Span) (es : List Expr) :
    SameAt s (sequenceFrom start es) (sequenceFrom start es) := by
  obtain ⟨e, hrun, _⟩ := run_sequenceFrom start es s
  refine ⟨rfl, ?_⟩
  intro e' t h
  cases hrun.symm.trans h
  exact hs.within

theorem same_sequence (h : Same n nested nested') : Same n (sequence nested) (sequence nested') := by
  intro s hs hn
  unfold sequence
  refine (h s hs hn).bind fun first t ht => ?_
  refine ((same_loop (same_nextInSequence h) [first]).at_within ht hn).bind fun items u hu => ?_
  exact sameAt_sequenceFrom hu.closed first.span items

theorem sameAt_objectKey (hs : s.Closed) : SameAt s objectKey objectKey := by
  unfold objectKey
  refine sameAt_current hs ?_
  split
  next hk => exact sameAt_advance hs hk (by simp) fun hnext _ => sameAt_pure hnext _
  next hk => exact sameAt_advance hs hk (by simp) fun hnext _ => sameAt_pure hnext _
  next hk => exact sameAt_advance hs hk (by simp) fun hnext _ => sameAt_pure hnext _
  next => exact sameAt_fail _

theorem same_objectEntry (h : Same n nested nested') :
    Same n (objectEntry nested) (objectEntry nested') := by
  intro s hs hn
  unfold objectEntry
  refine (sameAt_objectKey hs).bind fun key t ht => ?_
  refine sameAt_expect ht.closed fun hnext hlt => ?_
  have hle := ht.length_le
  exact (h t.next hnext (by omega)).bind fun e u hu => sameAt_pure hu.closed _

theorem sameAt_literal (hs : s.Closed) (hk : s.current.kind = k) (hne : k ≠ .eof) (value : Literal) :
    SameAt s (literal value) (literal value) := by
  unfold literal
  exact sameAt_current hs (sameAt_advance hs hk hne fun hnext _ => sameAt_pure hnext _)

theorem same_primary (h : Same n nested nested') :
    Same (n + 1) (primary nested) (primary nested') := by
  intro s hs hn
  unfold primary
  refine sameAt_current hs ?_
  split
  next hk => exact sameAt_literal hs hk (by simp) _
  next hk => exact sameAt_literal hs hk (by simp) _
  next hk => exact sameAt_literal hs hk (by simp) _
  next hk => exact sameAt_literal hs hk (by simp) _
  next hk => exact sameAt_literal hs hk (by simp) _
  next hk => exact sameAt_advance hs hk (by simp) fun hnext _ => sameAt_pure hnext _
  -- what is in brackets has one token less
  next hk =>
    refine sameAt_advance hs hk (by simp) fun hnext hlt => ?_
    refine (same_sequence h s.next hnext (by omega)).bind fun e t ht => ?_
    exact sameAt_expect ht.closed fun hnext' _ => sameAt_pure hnext' _
  next hk =>
    refine sameAt_advance hs hk (by simp) fun hnext hlt => ?_
    refine (same_separated h _ s.next hnext (by omega)).bind fun es t ht => ?_
    exact sameAt_spanFrom ht.closed fun span => sameAt_pure ht.closed _
  next hk =>
    refine sameAt_advance hs hk (by simp) fun hnext hlt => ?_
    refine (same_separated (same_objectEntry h) _ s.next hnext (by omega)).bind fun es t ht => ?_
    exact sameAt_spanFrom ht.closed fun span => sameAt_pure ht.closed _
  next => exact sameAt_fail _
  next => exact sameAt_fail _

theorem same_postfixStep (h : Same n nested nested') (e : Expr) :
    Same (n + 1) (postfixStep nested e) (postfixStep nested' e) := by
  intro s hs hn
  unfold postfixStep
  refine sameAt_symbol? hs ?_
  split
  next hy =>
    refine sameAt_advance hs (s.symbol?_eq_some_iff.mp hy) (by simp) fun hnext hlt => ?_
    refine (same_separated h _ s.next hnext (by omega)).bind fun es t ht => ?_
    exact sameAt_spanFrom ht.closed fun span => sameAt_pure ht.closed _
  next hy =>
    refine sameAt_advance hs (s.symbol?_eq_some_iff.mp hy) (by simp) fun hnext hlt => ?_
    refine sameAt_current hnext ?_
    split
    next name hk =>
      refine sameAt_advance hnext hk (by simp) fun hnext' _ => ?_
      exact sameAt_spanFrom hnext' fun span => sameAt_pure hnext' _
    next => exact sameAt_fail _
  next hy =>
    refine sameAt_advance hs (s.symbol?_eq_some_iff.mp hy) (by simp) fun hnext hlt => ?_
    refine (h s.next hnext (by omega)).bind fun key t ht => sameAt_expect ht.closed fun hnext' _ => ?_
    exact sameAt_spanFrom hnext' fun span => sameAt_pure hnext' _
  next => exact sameAt_pure hs _

theorem same_postfixExpr (h : Same n nested nested') :
    Same (n + 1) (postfixExpr nested) (postfixExpr nested') := by
  intro s hs hn
  unfold postfixExpr
  refine (same_primary h s hs hn).bind fun e t ht => ?_
  exact (same_loop (same_postfixStep h) e).at_within ht hn

theorem same_nextPrefix (ops : List (UnaryOp × Span)) : Same n (nextPrefix ops) (nextPrefix ops) := by
  intro s hs _
  unfold nextPrefix
  refine sameAt_current hs (sameAt_symbol? hs ?_)
  split
  next op hop =>
    obtain ⟨sign, hsign, _⟩ := Option.bind_eq_some_iff.mp hop
    refine sameAt_advance hs (s.symbol?_eq_some_iff.mp hsign) (by simp) fun hnext _ => ?_
    exact sameAt_pure hnext _
  next => exact sameAt_pure hs _

theorem same_unary (h : Same n nested nested') : Same (n + 1) (unary nested) (unary nested') := by
  intro s hs hn
  unfold unary prefixOps
  refine (same_loop same_nextPrefix [] s hs hn).bind fun ops t ht => ?_
  refine ((same_postfixExpr h).at_within ht hn).bind fun e u hu => ?_
  exact sameAt_get hu.closed (sameAt_pure hu.closed _)

theorem same_nextOperand {operand operand' : Reader Expr} (h : Same n operand operand')
    (ops : List (Symbol × Operator)) (left : Expr) :
    Same n (nextOperand ops operand left) (nextOperand ops operand' left) := by
  intro s hs hn
  unfold nextOperand
  refine sameAt_symbol? hs ?_
  split
  next op hop =>
    obtain ⟨sign, hsign, _⟩ := Option.bind_eq_some_iff.mp hop
    refine sameAt_advance hs (s.symbol?_eq_some_iff.mp hsign) (by simp) fun hnext hlt => ?_
    exact (h s.next hnext (by omega)).bind fun e t ht => sameAt_pure ht.closed _
  next => exact sameAt_pure hs _

theorem same_operators {operand operand' : Reader Expr} (h : Same n operand operand')
    (levels : List (List (Symbol × Operator))) :
    Same n (operators operand levels) (operators operand' levels) := by
  induction levels with
  | nil => exact h
  | cons ops tighter ih =>
    intro s hs hn
    unfold operators leftAssociative
    refine (ih s hs hn).bind fun e t ht => ?_
    exact (same_loop (same_nextOperand ih ops) e).at_within ht hn

theorem same_conditional (h : Same n nested nested') :
    Same (n + 1) (conditional nested) (conditional nested') := by
  intro s hs hn
  unfold conditional
  refine (same_operators (same_unary h) operatorLevels s hs hn).bind fun test t ht => ?_
  refine sameAt_eat ht.closed (fun hnext hlt => ?_) (sameAt_pure ht.closed _)
  have hle := ht.length_le
  refine (h t.next hnext (by omega)).bind fun consequent u hu => ?_
  refine sameAt_expect hu.closed fun hnext' hlt' => ?_
  have hle' := hu.length_le
  exact (h u.next hnext' (by omega)).bind fun alternate v hv => sameAt_pure hv.closed _

theorem same_assignmentOver (h : Same n nested nested') :
    Same (n + 1) (assignmentOver nested) (assignmentOver nested') := by
  intro s hs hn
  unfold assignmentOver
  refine (same_conditional h s hs hn).bind fun target t ht => sameAt_symbol? ht.closed ?_
  split
  next op hop =>
    obtain ⟨sign, hsign, _⟩ := Option.bind_eq_some_iff.mp hop
    cases target.isPlace with
    | false =>
      refine ⟨rfl, ?_⟩
      intro e u h
      cases h
    | true =>
      refine sameAt_advance ht.closed (t.symbol?_eq_some_iff.mp hsign) (by simp) fun hnext hlt => ?_
      have hle := ht.length_le
      exact (h t.next hnext (by omega)).bind fun value u hu => sameAt_pure hu.closed _
  next => exact sameAt_pure ht.closed _

/-- Every depth of at least the number of tokens is as good as any other. -/
theorem same_assignment {depth depth' : Nat} (h : n ≤ depth) (h' : n ≤ depth') :
    Same n (assignment depth) (assignment depth') := by
  induction n generalizing depth depth' with
  | zero =>
    intro s hs hn
    have hpos := hs.length_pos
    omega
  | succ n ih =>
    cases depth with
    | zero => cases h
    | succ depth =>
      cases depth' with
      | zero => cases h'
      | succ depth' =>
        exact same_assignmentOver (ih (Nat.le_of_succ_le_succ h) (Nat.le_of_succ_le_succ h'))

theorem same_action (h : Same n nested nested') : Same n (action nested) (action nested') := by
  intro s hs hn
  unfold action
  refine (same_sequence h s hs hn).bind fun pattern t ht => ?_
  refine sameAt_eat ht.closed (fun hnext hlt => ?_) (sameAt_pure ht.closed _)
  have hle := ht.length_le
  refine (same_sequence h t.next hnext (by omega)).bind fun body u hu => ?_
  exact sameAt_pure hu.closed _

end Reader

end TextAdventure
