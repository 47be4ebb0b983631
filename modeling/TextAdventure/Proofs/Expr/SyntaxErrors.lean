import TextAdventure.Proofs.Expr.Nesting
import TextAdventure.Proofs.Token.Lines

/-! # Syntax errors point into the source

A reader that fails blames a token of the text, or its end: the one that it cannot go on with, or the first
one of an expression that cannot be assigned to. Tokens carry their place in the text, so the line that an
error shows and the place that it names are those of the token.
-/
namespace TextAdventure

open TextAdventure.Expr

/-- The state of a reader of tokens that are apart, with the end of the source after them, which has not
been read. -/
structure ReaderState.Amid (all : List Token) (s : ReaderState) : Prop where
  ended : ∃ ts stop, all = ts ++ [stop] ∧ stop.kind = .eof ∧ Apart ts
  suffix : s.tokens <:+ all
  ne_nil : s.tokens ≠ []

/-- The error is at the start of one of the tokens. -/
def SyntaxError.AtToken (all : List Token) (e : SyntaxError) : Prop :=
  ∃ t ∈ all, e.span = { t.span with stop := e.span.stop }

namespace ReaderState

variable {all ts : List Token} {s t : ReaderState}

theorem Amid.tokens_eq (hs : s.Amid all) : s.tokens = s.current :: s.next.tokens := by
  obtain ⟨token, tokens, htokens⟩ := List.exists_cons_of_ne_nil hs.ne_nil
  rw [current, next, htokens]
  rfl

theorem Amid.current_mem (hs : s.Amid all) : s.current ∈ all := by
  have hmem : s.current ∈ s.tokens := hs.tokens_eq ▸ List.mem_cons_self
  exact hs.suffix.subset hmem

theorem Amid.next (hs : s.Amid all) (hne : s.current.kind ≠ .eof) : s.next.Amid all := by
  have hsuffix : s.current :: s.next.tokens <:+ all := hs.tokens_eq ▸ hs.suffix
  refine ⟨hs.ended, (List.suffix_cons _ _).trans hsuffix, ?_⟩
  intro hnil
  obtain ⟨ts, stop, rfl, hstop, -⟩ := hs.ended
  obtain ⟨before, hbefore⟩ := hsuffix
  rw [hnil] at hbefore
  obtain ⟨-, hcurrent⟩ := List.append_inj' hbefore rfl
  exact hne ((List.cons.inj hcurrent).1 ▸ hstop)

theorem Amid.apart (hs : s.Amid all) (ht : t.Amid all) (h : s.Passes ts t) : Apart ts := by
  obtain ⟨us, stop, rfl, -, hus⟩ := hs.ended
  obtain ⟨before, hbefore⟩ := hs.suffix
  obtain ⟨rest, last, hlast⟩ := (List.eq_nil_or_concat' t.tokens).resolve_left ht.ne_nil
  rw [h.tokens, hlast, ← List.append_assoc, ← List.append_assoc] at hbefore
  obtain ⟨hread, -⟩ := List.append_inj' hbefore rfl
  rw [← hread] at hus
  exact hus.left.right

end ReaderState

namespace Reader

variable {α β : Type} {m : Reader α} {f : α → Reader β} {s : ReaderState} {all : List Token} {a : α}
  {y : Symbol} {nested : Reader Expr}

/-- What comes of reading: fewer tokens, with the end of the source among them, or an error at a token. -/
def Answers (all : List Token) : Except SyntaxError (α × ReaderState) → Prop
  | .ok (_, t) => t.Amid all
  | .error e => e.AtToken all

/-- A reader that fails blames a token, and one that succeeds leaves the end of the source to be read. -/
def BlamesAt (all : List Token) (s : ReaderState) (m : Reader α) : Prop :=
  s.Amid all → Answers all (m.run s)

/-- The same from every state. -/
def Blames (all : List Token) (m : Reader α) : Prop :=
  ∀ s, BlamesAt all s m

theorem BlamesAt.bind (hm : BlamesAt all s m) (hf : ∀ a t, m.run s = .ok (a, t) → BlamesAt all t (f a)) :
    BlamesAt all s (m >>= f) := by
  intro hs
  have hm := hm hs
  cases hrun : m.run s with
  | error e =>
    rw [StateT.run_bind, hrun]
    rw [hrun] at hm
    exact hm
  | ok r =>
    obtain ⟨a, t⟩ := r
    rw [run_bind_of_ok hrun]
    rw [hrun] at hm
    exact hf a t hrun hm

theorem blamesAt_pure (a : α) : BlamesAt all s (pure a) :=
  fun hs => hs

theorem blamesAt_fail (message : String) : BlamesAt all s (fail message : Reader α) :=
  fun hs => ⟨s.current, hs.current_mem, rfl⟩

theorem blamesAt_of_run (hm : m.run s = .ok (a, s)) (hf : BlamesAt all s (f a)) :
    BlamesAt all s (m >>= f) := by
  intro hs
  rw [run_bind_of_ok hm]
  exact hf hs

theorem blamesAt_of_run_next (hm : m.run s = .ok (a, s.next)) (hne : s.current.kind ≠ .eof)
    (hf : BlamesAt all s.next (f a)) : BlamesAt all s (m >>= f) := by
  intro hs
  rw [run_bind_of_ok hm]
  exact hf (hs.next hne)

theorem blamesAt_current {f : Token → Reader β} (hf : BlamesAt all s (f s.current)) :
    BlamesAt all s (current >>= f) :=
  blamesAt_of_run run_current hf

theorem blamesAt_symbol? {f : Option Symbol → Reader β} (hf : BlamesAt all s (f s.symbol?)) :
    BlamesAt all s (symbol? >>= f) :=
  blamesAt_of_run run_symbol? hf

theorem blamesAt_get {f : ReaderState → Reader β} (hf : BlamesAt all s (f s)) :
    BlamesAt all s (get >>= f) :=
  blamesAt_of_run rfl hf

theorem blamesAt_spanFrom {start : Span} {f : Span → Reader β}
    (hf : BlamesAt all s (f (start.through s.previous))) : BlamesAt all s (spanFrom start >>= f) :=
  blamesAt_of_run (run_spanFrom start) hf

theorem blamesAt_advance {k : TokenKind} {f : Unit → Reader β} (hk : s.current.kind = k) (hne : k ≠ .eof)
    (hf : BlamesAt all s.next (f ())) : BlamesAt all s (advance >>= f) :=
  blamesAt_of_run_next run_advance (hk ▸ hne) hf

theorem blamesAt_advance_symbol {f : Unit → Reader β} (hy : s.symbol? = some y)
    (hf : BlamesAt all s.next (f ())) : BlamesAt all s (advance >>= f) :=
  blamesAt_advance (ReaderState.symbol?_eq_some_iff.mp hy) (by simp) hf

theorem blamesAt_eat {f : Bool → Reader β} (htrue : s.symbol? = some y → BlamesAt all s.next (f true))
    (hfalse : BlamesAt all s (f false)) : BlamesAt all s (eat y >>= f) := by
  by_cases hy : s.symbol? = some y
  · have hkind := ReaderState.symbol?_eq_some_iff.mp hy
    exact blamesAt_of_run_next (run_eat_of_eq hy) (by simp [hkind]) (htrue hy)
  · exact blamesAt_of_run (run_eat_of_ne hy) hfalse

theorem blames_expect (y : Symbol) : Blames all (expect y) := by
  intro s
  unfold expect
  refine blamesAt_eat (fun _ => blamesAt_pure ()) ?_
  exact blamesAt_current (blamesAt_fail _)

theorem blames_loopFor {step : α → Reader (Option α)} (h : ∀ a, Blames all (step a)) (rounds : Nat)
    (a : α) : Blames all (loopFor step rounds a) := by
  induction rounds generalizing a with
  | zero => exact fun s => blamesAt_pure a
  | succ rounds ih =>
    intro s
    rw [loopFor]
    refine (h a s).bind fun r t _ => ?_
    cases r with
    | some b => exact ih b t
    | none => exact blamesAt_pure a

theorem blames_loop {step : α → Reader (Option α)} (h : ∀ a, Blames all (step a)) (a : α) :
    Blames all (loop step a) :=
  fun s => blamesAt_get (blames_loopFor h s.tokens.length a s)

theorem blames_nextItem (hm : Blames all m) (close : Symbol) (items : List α) :
    Blames all (nextItem close m items) := by
  intro s
  unfold nextItem
  refine blamesAt_eat (fun _ => blamesAt_symbol? ?_) (blamesAt_pure none)
  split
  · exact blamesAt_pure none
  · exact (hm s.next).bind fun a t _ => blamesAt_pure _

theorem blames_separated (hm : Blames all m) (close : Symbol) : Blames all (separated close m) := by
  intro s
  unfold separated
  refine blamesAt_eat (fun _ => blamesAt_pure []) ((hm s).bind fun first t _ => ?_)
  refine (blames_loop (blames_nextItem hm close) [first] t).bind fun items u _ => ?_
  exact (blames_expect close u).bind fun _ v _ => blamesAt_pure items

theorem blames_nextInSequence (hn : Blames all nested) (items : List Expr) :
    Blames all (nextInSequence nested items) := by
  intro s
  unfold nextInSequence
  refine blamesAt_eat (fun _ => blamesAt_current ?_) (blamesAt_pure none)
  split
  iterate 4 exact blamesAt_pure none
  exact (hn s.next).bind fun e t _ => blamesAt_pure _

theorem blames_sequenceFrom (start : Span) (items : List Expr) : Blames all (sequenceFrom start items) := by
  intro s
  unfold sequenceFrom
  split
  · exact blamesAt_pure _
  · exact blamesAt_spanFrom (blamesAt_pure _)

theorem blames_sequence (hn : Blames all nested) : Blames all (sequence nested) := by
  intro s
  unfold sequence
  refine (hn s).bind fun first t _ => ?_
  refine (blames_loop (blames_nextInSequence hn) [first] t).bind fun items u _ => ?_
  exact blames_sequenceFrom first.span items u

theorem blames_objectKey : Blames all objectKey := by
  intro s
  unfold objectKey
  refine blamesAt_current ?_
  split
  next hk => exact blamesAt_advance hk (by simp) (blamesAt_pure _)
  next hk => exact blamesAt_advance hk (by simp) (blamesAt_pure _)
  next hk => exact blamesAt_advance hk (by simp) (blamesAt_pure _)
  next => exact blamesAt_fail _

theorem blames_objectEntry (hn : Blames all nested) : Blames all (objectEntry nested) := by
  intro s
  unfold objectEntry
  refine (blames_objectKey s).bind fun key t _ => (blames_expect .colon t).bind fun _ u _ => ?_
  exact (hn u).bind fun e v _ => blamesAt_pure (key, e)

theorem blamesAt_literal {value : Literal} {k : TokenKind} (hk : s.current.kind = k) (hne : k ≠ .eof) :
    BlamesAt all s (literal value) :=
  blamesAt_current (blamesAt_advance hk hne (blamesAt_pure _))

theorem blames_primary (hn : Blames all nested) : Blames all (primary nested) := by
  intro s
  unfold primary
  refine blamesAt_current ?_
  split
  next hk => exact blamesAt_literal hk (by simp)
  next hk => exact blamesAt_literal hk (by simp)
  next hk => exact blamesAt_literal hk (by simp)
  next hk => exact blamesAt_literal hk (by simp)
  next hk => exact blamesAt_literal hk (by simp)
  next hk => exact blamesAt_advance hk (by simp) (blamesAt_pure _)
  next hk =>
    refine blamesAt_advance hk (by simp) ((blames_sequence hn s.next).bind fun e t _ => ?_)
    exact (blames_expect .rightParen t).bind fun _ u _ => blamesAt_pure e
  next hk =>
    have hitems := blames_separated hn .rightBracket s.next
    exact blamesAt_advance hk (by simp) (hitems.bind fun _ t _ => blamesAt_spanFrom (blamesAt_pure _))
  next hk =>
    have hentries := blames_separated (blames_objectEntry hn) .rightBrace s.next
    exact blamesAt_advance hk (by simp) (hentries.bind fun _ t _ => blamesAt_spanFrom (blamesAt_pure _))
  next => exact blamesAt_fail _
  next => exact blamesAt_fail _

theorem blames_postfixStep (hn : Blames all nested) (e : Expr) : Blames all (postfixStep nested e) := by
  intro s
  unfold postfixStep
  refine blamesAt_symbol? ?_
  split
  next hy =>
    have hargs := blames_separated hn .rightParen s.next
    exact blamesAt_advance_symbol hy (hargs.bind fun _ t _ => blamesAt_spanFrom (blamesAt_pure _))
  next hy =>
    refine blamesAt_advance_symbol hy (blamesAt_current ?_)
    split
    next hk => exact blamesAt_advance hk (by simp) (blamesAt_spanFrom (blamesAt_pure _))
    next => exact blamesAt_fail _
  next hy =>
    refine blamesAt_advance_symbol hy ((hn s.next).bind fun key t _ => ?_)
    exact (blames_expect .rightBracket t).bind fun _ u _ => blamesAt_spanFrom (blamesAt_pure _)
  next => exact blamesAt_pure none

theorem blames_postfixExpr (hn : Blames all nested) : Blames all (postfixExpr nested) :=
  fun s => (blames_primary hn s).bind fun e t _ => blames_loop (blames_postfixStep hn) e t

theorem blames_nextPrefix (ops : List (UnaryOp × Span)) : Blames all (nextPrefix ops) := by
  intro s
  unfold nextPrefix
  refine blamesAt_current (blamesAt_symbol? ?_)
  split
  next hop =>
    obtain ⟨y, hy, -⟩ := Option.bind_eq_some_iff.mp hop
    exact blamesAt_advance_symbol hy (blamesAt_pure _)
  next => exact blamesAt_pure none

theorem blames_unary (hn : Blames all nested) : Blames all (unary nested) := by
  intro s
  unfold unary prefixOps
  refine (blames_loop blames_nextPrefix [] s).bind fun ops t _ => ?_
  exact (blames_postfixExpr hn t).bind fun e u _ => blamesAt_get (blamesAt_pure _)

theorem blames_nextOperand {operand : Reader Expr} (ho : Blames all operand)
    (ops : List (Symbol × Operator)) (left : Expr) : Blames all (nextOperand ops operand left) := by
  intro s
  unfold nextOperand
  refine blamesAt_symbol? ?_
  split
  next hop =>
    obtain ⟨y, hy, -⟩ := Option.bind_eq_some_iff.mp hop
    exact blamesAt_advance_symbol hy ((ho s.next).bind fun right t _ => blamesAt_pure _)
  next => exact blamesAt_pure none

theorem blames_operators {operand : Reader Expr} (ho : Blames all operand)
    (levels : List (List (Symbol × Operator))) : Blames all (operators operand levels) := by
  induction levels with
  | nil => exact ho
  | cons ops levels ih =>
    exact fun s => (ih s).bind fun left t _ => blames_loop (blames_nextOperand ih ops) left t

theorem blames_conditional (hn : Blames all nested) : Blames all (conditional nested) := by
  intro s
  unfold conditional
  refine (blames_operators (blames_unary hn) operatorLevels s).bind fun test t _ => ?_
  refine blamesAt_eat (fun _ => (hn t.next).bind fun consequent u _ => ?_) (blamesAt_pure test)
  refine (blames_expect .colon u).bind fun _ v _ => ?_
  exact (hn v).bind fun alternate w _ => blamesAt_pure _

theorem blames_assignmentOver (hn : Blames all nested) (hnests : Takes nested Nests) :
    Blames all (assignmentOver nested) := by
  intro s hs
  unfold assignmentOver
  have hconditional := blames_conditional hn s
  refine BlamesAt.bind hconditional (fun target t hrun => blamesAt_symbol? ?_) hs
  split
  next op hop =>
    cases target.isPlace with
    | false =>
      -- the target has been read already, so its first token is one of the state before
      intro ht
      obtain ⟨ts, hpass, htarget⟩ := nests_conditional hnests s target t hrun
      obtain ⟨first, hfirst, last, -, -, hspan⟩ := (htarget (hs.apart ht hpass)).spanned
      have hmem : first ∈ s.tokens := hpass.tokens ▸ List.mem_append_left t.tokens hfirst
      have hstart : target.span = { first.span with stop := target.span.stop } := by rw [hspan]
      exact ⟨first, hs.suffix.subset hmem, hstart⟩
    | true =>
      obtain ⟨y, hy, -⟩ := Option.bind_eq_some_iff.mp hop
      exact blamesAt_advance_symbol hy ((hn t.next).bind fun value u _ => blamesAt_pure _)
  next => exact blamesAt_pure target

theorem blames_assignment (depth : Nat) : Blames all (assignment depth) := by
  induction depth with
  | zero => exact fun s => blamesAt_fail _
  | succ depth ih => exact blames_assignmentOver ih (nests_assignment depth)

theorem blames_action (hn : Blames all nested) : Blames all (action nested) := by
  intro s
  unfold action
  refine (blames_sequence hn s).bind fun pattern t _ => ?_
  refine blamesAt_eat (fun _ => ?_) (blamesAt_pure pattern)
  exact (blames_sequence hn t.next).bind fun body u _ => blamesAt_pure _

theorem blames_whole (depth : Nat) : Blames all (whole depth) := by
  intro s
  unfold whole
  refine blamesAt_current ?_
  split
  · exact blamesAt_fail _
  · refine (blames_action (blames_assignment depth) s).bind fun e t _ => blamesAt_current ?_
    split
    · exact blamesAt_pure e
    · exact blamesAt_fail _

end Reader

namespace Expr

variable {source : String} {error : Error}

theorem amid_scan (source : String) (previous : Span) :
    ReaderState.Amid (Token.scan source) ⟨Token.scan source, previous⟩ := by
  obtain ⟨ts, hts, hfilled⟩ := (Token.tiles_scanFrom [] source.toList).exists_eof
  have hscan : Token.scan source = ts ++ [⟨.eof, .ofPiece ([] ++ source.toList) []⟩] := hts
  refine ⟨⟨ts, _, hscan, rfl, ?_⟩, List.suffix_refl _, ?_⟩
  · exact apart_of_scan hscan fun t ht => (hfilled t ht).1
  · rw [hscan]
    exact List.concat_ne_nil _ _

/-- The error for a text that is not read names the line and the column where a token of the text starts, or
where the text ends, and shows that line. -/
theorem parse_error_points (h : parse source = .error error) : ∃ e : SyntaxError,
    (Reader.whole (Token.scan source).length).run ⟨Token.scan source, .default⟩ = .error e ∧
      error = .ofFault (.parse e.message e.span.line e.span.column (e.span.lineText source)) ∧
      e.span.Points source ∧
      (Text.charsBefore source e.span.line e.span.column = source.toList ∨
        ∃ t ∈ Token.scan source, t.kind ≠ .eof ∧ t.span.start = e.span.start) := by
  cases hrun : (Reader.whole (Token.scan source).length).run ⟨Token.scan source, .default⟩ with
  | ok r =>
    rw [parse, parseWithin, hrun] at h
    cases h
  | error e =>
    rw [parse, parseWithin, hrun] at h
    have hblames := Reader.blames_whole (Token.scan source).length _ (amid_scan source .default)
    rw [hrun] at hblames
    obtain ⟨t, ht, hspan⟩ := hblames
    have htiles := Token.tiles_scanFrom [] source.toList
    obtain ⟨before, piece, after, hsource, htspan, hend⟩ := htiles.exists_ofPiece t ht
    rw [List.nil_append, List.append_assoc] at hsource
    rw [htspan] at hspan
    obtain ⟨hpoints, hchars⟩ := Span.points_of_ofPiece hsource hspan
    refine ⟨e, rfl, (Except.error.inj h).symm, hpoints, ?_⟩
    by_cases hkind : t.kind = .eof
    · rw [hend hkind, List.append_nil] at hsource
      exact .inl (hchars.trans hsource.symm)
    · exact .inr ⟨t, ht, hkind, by rw [htspan, hspan]⟩

/-- The parentheses are not part of the expression that cannot be assigned to. -/
theorem parse_error_points_second_line : ∃ e : SyntaxError,
    parse "'é';\n(b + 1) = 2" = .error (.ofFault (.parse "invalid assignment target" 2 2 "(b + 1) = 2")) ∧
      e.span.line = 2 ∧ e.span.column = 2 ∧ e.span.Points "'é';\n(b + 1) = 2" := by
  have hfault : (match parse "'é';\n(b + 1) = 2" with
      | .error error => some error
      | .ok _ => none) = some (.ofFault (.parse "invalid assignment target" 2 2 "(b + 1) = 2")) := by
    decide +kernel
  cases hparse : parse "'é';\n(b + 1) = 2" with
  | ok e =>
    rw [hparse] at hfault
    cases hfault
  | error error =>
    rw [hparse] at hfault
    cases hfault
    obtain ⟨e, -, herror, hpoints, -⟩ := parse_error_points hparse
    injection herror with hraised
    injection hraised with _ hline hcolumn
    exact ⟨e, rfl, hline.symm, hcolumn.symm, hpoints⟩

end Expr

end TextAdventure
