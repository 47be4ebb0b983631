import TextAdventure.Proofs.Expr.Reading

/-! # Which tokens a reader takes

What a reader reads, with the tokens themselves and not only their kinds: if it succeeds, it has taken
tokens that are related to its result, and the span of the last of them is the one it has noted. The rules
are those for kinds.
-/
namespace TextAdventure

/-- The tokens come first, and after them the other state is reached. -/
structure ReaderState.Passes (s : ReaderState) (ts : List Token) (t : ReaderState) : Prop where
  tokens : s.tokens = ts ++ t.tokens
  previous : t.previous = (ts.getLast?.map Token.span).getD s.previous

namespace ReaderState

variable {s t u : ReaderState} {ts us : List Token} {k : TokenKind} {y : Symbol}

theorem passes_nil (s : ReaderState) : s.Passes [] s :=
  ⟨rfl, rfl⟩

theorem Passes.trans (h : s.Passes ts t) (h' : t.Passes us u) : s.Passes (ts ++ us) u := by
  refine ⟨by rw [h.tokens, h'.tokens, List.append_assoc], ?_⟩
  rw [h'.previous, h.previous, List.getLast?_append]
  cases us.getLast? <;> rfl

theorem passes_next (h : s.current.kind = k) (hk : k ≠ .eof) : s.Passes [s.current] s.next := by
  obtain ⟨tokens, previous⟩ := s
  cases tokens with
  | nil => exact absurd h.symm hk
  | cons token tokens => exact ⟨rfl, rfl⟩

theorem passes_symbol (h : s.symbol? = some y) : s.Passes [s.current] s.next :=
  passes_next (symbol?_eq_some_iff.mp h) (by simp)

theorem Passes.kinds (h : s.Passes ts t) : s.kinds = ts.map Token.kind ++ t.kinds := by
  rw [ReaderState.kinds, h.tokens, List.map_append]
  rfl

theorem Passes.previous_eq (h : s.Passes ts t) {token : Token} (htoken : token ∈ ts.getLast?) :
    t.previous = token.span := by
  rw [h.previous, htoken]
  rfl

end ReaderState

namespace Reader

variable {α β : Type} {m : Reader α} {f : α → Reader β} {s u : ReaderState} {a : α} {k : TokenKind}
  {y : Symbol} {token : Token} {R : List Token → α → Prop} {S : List Token → β → Prop}

/-- If the reader succeeds, the tokens it has taken are related to its result. -/
def TakesAt (s : ReaderState) (m : Reader α) (R : List Token → α → Prop) : Prop :=
  ∀ a t, m.run s = .ok (a, t) → ∃ ts, s.Passes ts t ∧ R ts a

/-- The same from every state. -/
def Takes (m : Reader α) (R : List Token → α → Prop) : Prop :=
  ∀ s, TakesAt s m R

/-- The reader takes the tokens that come first, whatever they are. -/
def Passing (m : Reader α) : Prop :=
  Takes m fun _ _ => True

theorem TakesAt.bind (hm : TakesAt s m R)
    (hf : ∀ ts a t, s.Passes ts t → R ts a → TakesAt t (f a) fun us b => S (ts ++ us) b) :
    TakesAt s (m >>= f) S := by
  intro b t h
  obtain ⟨a, u, ha, hb⟩ := run_bind_eq_ok_iff.mp h
  obtain ⟨ts, hts, hR⟩ := hm a u ha
  obtain ⟨us, hus, hS⟩ := hf ts a u hts hR b t hb
  exact ⟨ts ++ us, hts.trans hus, hS⟩

theorem TakesAt.imp {R' : List Token → α → Prop} (h : TakesAt s m R) (hR : ∀ ts a, R ts a → R' ts a) :
    TakesAt s m R' := by
  intro a t hrun
  obtain ⟨ts, hts, ha⟩ := h a t hrun
  exact ⟨ts, hts, hR ts a ha⟩

theorem takesAt_pure (h : R [] a) : TakesAt s (pure a) R := by
  intro a' t hrun
  cases hrun
  exact ⟨[], s.passes_nil, h⟩

theorem takesAt_error {e : SyntaxError} (h : m.run s = .error e) : TakesAt s m R := by
  intro a t hrun
  rw [h] at hrun
  cases hrun

theorem takesAt_fail (message : String) : TakesAt s (fail message) R :=
  takesAt_error rfl

theorem takesAt_of_run (hm : m.run s = .ok (a, s)) (hf : TakesAt s (f a) S) :
    TakesAt s (m >>= f) S := by
  intro b t h
  rw [run_bind_of_ok hm] at h
  exact hf b t h

theorem takesAt_of_run_next (hm : m.run s = .ok (a, s.next)) (hs : s.Passes [token] s.next)
    (hf : TakesAt s.next (f a) fun us b => S (token :: us) b) : TakesAt s (m >>= f) S := by
  intro b t h
  rw [run_bind_of_ok hm] at h
  obtain ⟨us, hus, hS⟩ := hf b t h
  exact ⟨token :: us, hs.trans hus, hS⟩

theorem takesAt_current {f : Token → Reader β} (hf : TakesAt s (f s.current) S) :
    TakesAt s (current >>= f) S :=
  takesAt_of_run run_current hf

theorem takesAt_symbol? {f : Option Symbol → Reader β} (hf : TakesAt s (f s.symbol?) S) :
    TakesAt s (symbol? >>= f) S :=
  takesAt_of_run run_symbol? hf

theorem takesAt_get {f : ReaderState → Reader β} (hf : TakesAt s (f s) S) : TakesAt s (get >>= f) S :=
  takesAt_of_run rfl hf

theorem takesAt_spanFrom {start : Span} {f : Span → Reader β}
    (hf : TakesAt s (f (start.through s.previous)) S) : TakesAt s (spanFrom start >>= f) S :=
  takesAt_of_run (run_spanFrom start) hf

theorem takesAt_advance {f : Unit → Reader β} (hk : s.current.kind = k) (hne : k ≠ .eof)
    (hf : TakesAt s.next (f ()) fun us b => S (s.current :: us) b) : TakesAt s (advance >>= f) S :=
  takesAt_of_run_next run_advance (s.passes_next hk hne) hf

theorem takesAt_eat {f : Bool → Reader β}
    (htrue : s.symbol? = some y → TakesAt s.next (f true) fun us b => S (s.current :: us) b)
    (hfalse : TakesAt s (f false) S) : TakesAt s (eat y >>= f) S := by
  by_cases hy : s.symbol? = some y
  · exact takesAt_of_run_next (run_eat_of_eq hy) (s.passes_symbol hy) (htrue hy)
  · exact takesAt_of_run (run_eat_of_ne hy) hfalse

theorem takesAt_expect {f : Unit → Reader β}
    (hf : s.symbol? = some y → TakesAt s.next (f ()) fun us b => S (s.current :: us) b) :
    TakesAt s (expect y >>= f) S := by
  by_cases hy : s.symbol? = some y
  · exact takesAt_of_run_next (run_expect_of_eq hy) (s.passes_symbol hy) (hf hy)
  · obtain ⟨e, he⟩ := run_expect_of_ne hy
    exact takesAt_error (by rw [StateT.run_bind, he]; rfl)

theorem TakesAt.and_reads {R' : List TokenKind → α → Prop} (h : TakesAt s m R) (h' : ReadsAt s m R') :
    TakesAt s m fun ts a => R' (ts.map Token.kind) a ∧ R ts a := by
  intro a t hrun
  obtain ⟨ts, hts, ha⟩ := h a t hrun
  obtain ⟨ks, hks, ha'⟩ := h' a t hrun
  obtain rfl := List.append_cancel_right (hts.kinds.symm.trans hks)
  exact ⟨ts, hts, ha', ha⟩

/-- What a round of a loop does to what is known of the tokens taken so far. -/
def Turn (P Q : List Token → α → Prop) (ts : List Token) (a : α) (us : List Token) : Option α → Prop
  | some b => P (ts ++ us) b
  | none => Q (ts ++ us) a

theorem takes_loopFor {step : α → Reader (Option α)} {P Q : List Token → α → Prop}
    (hstep : ∀ ts a, P ts a → Takes (step a) (Turn P Q ts a)) (hPQ : ∀ ts a, P ts a → Q ts a)
    (rounds : Nat) {ts : List Token} {a : α} (ha : P ts a) :
    Takes (loopFor step rounds a) fun us b => Q (ts ++ us) b := by
  induction rounds generalizing ts a with
  | zero =>
    intro s
    exact takesAt_pure (by simpa using hPQ ts a ha)
  | succ rounds ih =>
    intro s
    rw [loopFor]
    refine (hstep ts a ha s).bind ?_
    intro us r t _ hr
    cases r with
    | some b => simpa only [List.append_assoc] using ih hr t
    | none => exact takesAt_pure (by simpa [Turn] using hr)

theorem takes_loop {step : α → Reader (Option α)} {P Q : List Token → α → Prop}
    (hstep : ∀ ts a, P ts a → Takes (step a) (Turn P Q ts a)) (hPQ : ∀ ts a, P ts a → Q ts a)
    {ts : List Token} {a : α} (ha : P ts a) : Takes (loop step a) fun us b => Q (ts ++ us) b := by
  intro s
  exact takesAt_get (takes_loopFor hstep hPQ s.tokens.length ha s)

theorem passing_loop {step : α → Reader (Option α)} (h : ∀ a, Passing (step a)) (a : α) :
    Passing (loop step a) := by
  refine @takes_loop α step (fun _ _ => True) (fun _ _ => True) (fun ts a _ s => (h a s).imp ?_)
    (fun _ _ h => h) [] a trivial
  rintro us (_ | b) - <;> trivial

theorem passing_nextItem (h : Passing m) (close : Symbol) (items : List α) :
    Passing (nextItem close m items) := by
  intro s
  unfold nextItem
  refine takesAt_eat (fun _ => takesAt_symbol? ?_) (takesAt_pure trivial)
  split
  · exact takesAt_pure trivial
  · exact (h s.next).bind fun _ _ _ _ _ => takesAt_pure trivial

theorem passing_separated (h : Passing m) (close : Symbol) : Passing (separated close m) := by
  intro s
  unfold separated
  refine takesAt_eat (fun _ => takesAt_pure trivial) ?_
  refine (h s).bind fun _ first t _ _ => ?_
  refine (passing_loop (passing_nextItem h close) [first] t).bind fun _ items u _ _ => ?_
  exact takesAt_expect fun _ => takesAt_pure trivial

theorem passing_objectKey : Passing objectKey := by
  intro s
  unfold objectKey
  refine takesAt_current ?_
  split
  next hk => exact takesAt_advance hk (by simp) (takesAt_pure trivial)
  next hk => exact takesAt_advance hk (by simp) (takesAt_pure trivial)
  next hk => exact takesAt_advance hk (by simp) (takesAt_pure trivial)
  next => exact takesAt_fail _

theorem passing_objectEntry {nested : Reader Expr} (h : Passing nested) : Passing (objectEntry nested) := by
  intro s
  unfold objectEntry
  refine (passing_objectKey s).bind fun _ key t _ _ => takesAt_expect fun _ => ?_
  exact (h t.next).bind fun _ _ _ _ _ => takesAt_pure trivial

end Reader

end TextAdventure
