import TextAdventure.Expr.Parser

/-! # What readers read

Two ways to say what a reader does with the tokens that come first. If it succeeds, it has read tokens
that are related to its result; or it succeeds, leaves given tokens, and its result has a property. Both
are closed under sequencing, and each primitive reader has one rule for either of them.
-/
namespace TextAdventure

def TokenKind.symbol? : TokenKind → Option Symbol
  | symbol y => some y
  | _ => none

theorem TokenKind.symbol?_eq_some_iff {k : TokenKind} {y : Symbol} :
    k.symbol? = some y ↔ k = .symbol y := by
  cases k <;> simp [symbol?]

namespace ReaderState

variable {s : ReaderState} {k : TokenKind} {ks : List TokenKind} {y : Symbol}

def kinds (s : ReaderState) : List TokenKind :=
  s.tokens.map Token.kind

/-- The state after the current token. -/
def next (s : ReaderState) : ReaderState :=
  ⟨s.tokens.tail, s.current.span⟩

def symbol? (s : ReaderState) : Option Symbol :=
  s.current.kind.symbol?

theorem kinds_of_current (h : s.current.kind = k) (hk : k ≠ .eof) : s.kinds = k :: s.next.kinds := by
  obtain ⟨tokens, previous⟩ := s
  cases tokens with
  | nil => exact absurd h.symm hk
  | cons token tokens =>
    have hkind : token.kind = k := h
    simp [kinds, next, hkind]

theorem current_of_kinds (h : s.kinds = k :: ks) : s.current.kind = k := by
  obtain ⟨tokens, previous⟩ := s
  cases tokens with
  | nil => cases h
  | cons token tokens => exact (List.cons.inj h).1

theorem kinds_next (h : s.kinds = k :: ks) : s.next.kinds = ks := by
  obtain ⟨tokens, previous⟩ := s
  cases tokens with
  | nil => cases h
  | cons token tokens => exact (List.cons.inj h).2

theorem symbol?_eq_some_iff : s.symbol? = some y ↔ s.current.kind = .symbol y :=
  TokenKind.symbol?_eq_some_iff

theorem kinds_of_symbol? (h : s.symbol? = some y) : s.kinds = .symbol y :: s.next.kinds :=
  kinds_of_current (symbol?_eq_some_iff.mp h) (by simp)

theorem symbol?_of_kinds (h : s.kinds = k :: ks) : s.symbol? = k.symbol? := by
  rw [symbol?, current_of_kinds h]

theorem length_tokens (s : ReaderState) : s.tokens.length = s.kinds.length := by
  simp [kinds]

end ReaderState

namespace Reader

variable {α β : Type} {m : Reader α} {f : α → Reader β} {s t : ReaderState} {a : α} {b : β}
  {k : TokenKind} {y : Symbol}

theorem run_bind_eq_ok_iff : (m >>= f).run s = .ok (b, t) ↔
    ∃ a u, m.run s = .ok (a, u) ∧ (f a).run u = .ok (b, t) := by
  rw [StateT.run_bind]
  cases h : m.run s with
  | error e => simp [bind, Except.bind]
  | ok r =>
    obtain ⟨a, u⟩ := r
    simp only [bind, Except.bind, Except.ok.injEq, Prod.mk.injEq]
    constructor
    · intro h
      exact ⟨a, u, ⟨rfl, rfl⟩, h⟩
    · rintro ⟨_, _, ⟨rfl, rfl⟩, h⟩
      exact h

theorem run_bind_of_ok {u : ReaderState} (h : m.run s = .ok (a, u)) :
    (m >>= f).run s = (f a).run u := by
  rw [StateT.run_bind, h]
  rfl

theorem run_current : current.run s = .ok (s.current, s) := rfl

theorem run_symbol? : symbol?.run s = .ok (s.symbol?, s) := by
  unfold symbol? ReaderState.symbol? TokenKind.symbol?
  rw [run_bind_of_ok run_current]
  cases s.current.kind <;> rfl

theorem run_advance : advance.run s = .ok ((), s.next) := rfl

theorem run_eat_of_eq (h : s.symbol? = some y) : (eat y).run s = .ok (true, s.next) := by
  unfold eat
  rw [run_bind_of_ok run_symbol?, if_pos h]
  rfl

theorem run_eat_of_ne (h : s.symbol? ≠ some y) : (eat y).run s = .ok (false, s) := by
  unfold eat
  rw [run_bind_of_ok run_symbol?, if_neg h]
  rfl

theorem run_expect_of_eq (h : s.symbol? = some y) : (expect y).run s = .ok ((), s.next) := by
  unfold expect
  rw [run_bind_of_ok (run_eat_of_eq h)]
  rfl

theorem run_expect_of_ne (h : s.symbol? ≠ some y) : ∃ e, (expect y).run s = .error e := by
  unfold expect
  rw [run_bind_of_ok (run_eat_of_ne h)]
  exact ⟨_, rfl⟩

theorem run_spanFrom (start : Span) : (spanFrom start).run s = .ok (start.through s.previous, s) := rfl

/-- If the reader succeeds, the tokens it has read are related to its result. -/
def ReadsAt (s : ReaderState) (m : Reader α) (R : List TokenKind → α → Prop) : Prop :=
  ∀ a t, m.run s = .ok (a, t) → ∃ ts, s.kinds = ts ++ t.kinds ∧ R ts a

/-- The same from every state. -/
def Reads (m : Reader α) (R : List TokenKind → α → Prop) : Prop :=
  ∀ s, ReadsAt s m R

variable {R : List TokenKind → α → Prop} {S : List TokenKind → β → Prop}

theorem ReadsAt.bind (hm : ReadsAt s m R)
    (hf : ∀ ts a t, R ts a → ReadsAt t (f a) fun us b => S (ts ++ us) b) : ReadsAt s (m >>= f) S := by
  intro b t h
  obtain ⟨a, u, ha, hb⟩ := run_bind_eq_ok_iff.mp h
  obtain ⟨ts, hts, hR⟩ := hm a u ha
  obtain ⟨us, hus, hS⟩ := hf ts a u hR b t hb
  exact ⟨ts ++ us, by rw [hts, hus, List.append_assoc], hS⟩

theorem ReadsAt.imp {R' : List TokenKind → α → Prop} (h : ReadsAt s m R)
    (hR : ∀ ts a, R ts a → R' ts a) : ReadsAt s m R' := by
  intro a t hrun
  obtain ⟨ts, hts, ha⟩ := h a t hrun
  exact ⟨ts, hts, hR ts a ha⟩

theorem readsAt_pure (h : R [] a) : ReadsAt s (pure a) R := by
  intro a' t hrun
  cases hrun
  exact ⟨[], rfl, h⟩

theorem readsAt_error {e : SyntaxError} (h : m.run s = .error e) : ReadsAt s m R := by
  intro a t hrun
  rw [h] at hrun
  cases hrun

theorem readsAt_fail (message : String) : ReadsAt s (fail message) R :=
  readsAt_error rfl

theorem readsAt_of_run (hm : m.run s = .ok (a, s)) (hf : ReadsAt s (f a) S) :
    ReadsAt s (m >>= f) S := by
  intro b t h
  rw [run_bind_of_ok hm] at h
  exact hf b t h

theorem readsAt_of_run_next (hm : m.run s = .ok (a, s.next)) (hs : s.kinds = k :: s.next.kinds)
    (hf : ReadsAt s.next (f a) fun us b => S (k :: us) b) : ReadsAt s (m >>= f) S := by
  intro b t h
  rw [run_bind_of_ok hm] at h
  obtain ⟨us, hus, hS⟩ := hf b t h
  exact ⟨k :: us, by rw [hs, hus, List.cons_append], hS⟩

theorem readsAt_current {f : Token → Reader β} (hf : ReadsAt s (f s.current) S) :
    ReadsAt s (current >>= f) S :=
  readsAt_of_run run_current hf

theorem readsAt_symbol? {f : Option Symbol → Reader β} (hf : ReadsAt s (f s.symbol?) S) :
    ReadsAt s (symbol? >>= f) S :=
  readsAt_of_run run_symbol? hf

theorem readsAt_get {f : ReaderState → Reader β} (hf : ReadsAt s (f s) S) :
    ReadsAt s (get >>= f) S :=
  readsAt_of_run rfl hf

theorem readsAt_spanFrom {start : Span} {f : Span → Reader β} (hf : ∀ span, ReadsAt s (f span) S) :
    ReadsAt s (spanFrom start >>= f) S :=
  readsAt_of_run (run_spanFrom start) (hf _)

theorem readsAt_advance {f : Unit → Reader β} (hk : s.current.kind = k) (hne : k ≠ .eof)
    (hf : ReadsAt s.next (f ()) fun us b => S (k :: us) b) : ReadsAt s (advance >>= f) S :=
  readsAt_of_run_next run_advance (s.kinds_of_current hk hne) hf

theorem readsAt_eat {f : Bool → Reader β}
    (htrue : ReadsAt s.next (f true) fun us b => S (.symbol y :: us) b)
    (hfalse : s.symbol? ≠ some y → ReadsAt s (f false) S) : ReadsAt s (eat y >>= f) S := by
  by_cases hy : s.symbol? = some y
  · exact readsAt_of_run_next (run_eat_of_eq hy) (s.kinds_of_symbol? hy) htrue
  · exact readsAt_of_run (run_eat_of_ne hy) (hfalse hy)

theorem readsAt_expect {f : Unit → Reader β}
    (hf : ReadsAt s.next (f ()) fun us b => S (.symbol y :: us) b) : ReadsAt s (expect y >>= f) S := by
  by_cases hy : s.symbol? = some y
  · exact readsAt_of_run_next (run_expect_of_eq hy) (s.kinds_of_symbol? hy) hf
  · obtain ⟨e, he⟩ := run_expect_of_ne hy
    exact readsAt_error (by rw [StateT.run_bind, he]; rfl)

/-- What a round of a loop does to what is known of the tokens read so far. -/
def Round (P Q : List TokenKind → α → Prop) (ts : List TokenKind) (a : α) (us : List TokenKind) :
    Option α → Prop
  | some b => P (ts ++ us) b
  | none => Q (ts ++ us) a

/-- If every round keeps the invariant, and the last one turns it into the conclusion, the loop reads
what the conclusion says. -/
theorem reads_loopFor {step : α → Reader (Option α)} {P Q : List TokenKind → α → Prop}
    (hstep : ∀ ts a, P ts a → Reads (step a) (Round P Q ts a)) (hPQ : ∀ ts a, P ts a → Q ts a)
    (rounds : Nat) {ts : List TokenKind} {a : α} (ha : P ts a) :
    Reads (loopFor step rounds a) fun us b => Q (ts ++ us) b := by
  induction rounds generalizing ts a with
  | zero =>
    intro s
    exact readsAt_pure (by simpa using hPQ ts a ha)
  | succ rounds ih =>
    intro s
    rw [loopFor]
    refine (hstep ts a ha s).bind ?_
    intro us r t hr
    cases r with
    | some b => simpa only [List.append_assoc] using ih hr t
    | none => exact readsAt_pure (by simpa [Round] using hr)

theorem reads_loop {step : α → Reader (Option α)} {P Q : List TokenKind → α → Prop}
    (hstep : ∀ ts a, P ts a → Reads (step a) (Round P Q ts a)) (hPQ : ∀ ts a, P ts a → Q ts a)
    {ts : List TokenKind} {a : α} (ha : P ts a) :
    Reads (loop step a) fun us b => Q (ts ++ us) b := by
  intro s
  exact readsAt_get (reads_loopFor hstep hPQ s.tokens.length ha s)

/-- The reader succeeds, leaves the tokens of `rest`, and its result has the property. -/
def AcceptsAt (s : ReaderState) (m : Reader α) (rest : List TokenKind) (P : α → Prop) : Prop :=
  ∃ a t, m.run s = .ok (a, t) ∧ t.kinds = rest ∧ P a

/-- The same wherever the tokens of `ts` come before those of `rest`. -/
def Accepts (m : Reader α) (ts rest : List TokenKind) (P : α → Prop) : Prop :=
  ∀ s : ReaderState, s.kinds = ts ++ rest → AcceptsAt s m rest P

variable {rest us : List TokenKind} {P : α → Prop} {Q : β → Prop}

theorem acceptsAt_pure (hs : s.kinds = rest) (h : P a) : AcceptsAt s (pure a) rest P :=
  ⟨a, s, rfl, hs, h⟩

theorem AcceptsAt.bind (hm : AcceptsAt s m us P)
    (hf : ∀ a t, t.kinds = us → P a → AcceptsAt t (f a) rest Q) : AcceptsAt s (m >>= f) rest Q := by
  obtain ⟨a, t, ha, hus, hP⟩ := hm
  obtain ⟨b, u, hb, hrest, hQ⟩ := hf a t hus hP
  exact ⟨b, u, (run_bind_of_ok ha).trans hb, hrest, hQ⟩

theorem acceptsAt_of_run {u : ReaderState} (hm : m.run s = .ok (a, u))
    (hf : AcceptsAt u (f a) rest Q) : AcceptsAt s (m >>= f) rest Q := by
  obtain ⟨b, t, hb, h⟩ := hf
  exact ⟨b, t, (run_bind_of_ok hm).trans hb, h⟩

theorem AcceptsAt.imp {P' : α → Prop} (h : AcceptsAt s m rest P) (hP : ∀ a, P a → P' a) :
    AcceptsAt s m rest P' := by
  obtain ⟨a, t, hrun, hrest, ha⟩ := h
  exact ⟨a, t, hrun, hrest, hP a ha⟩

theorem acceptsAt_current {f : Token → Reader β} (hf : AcceptsAt s (f s.current) rest Q) :
    AcceptsAt s (current >>= f) rest Q :=
  acceptsAt_of_run run_current hf

theorem acceptsAt_symbol? {f : Option Symbol → Reader β} (hf : AcceptsAt s (f s.symbol?) rest Q) :
    AcceptsAt s (symbol? >>= f) rest Q :=
  acceptsAt_of_run run_symbol? hf

theorem acceptsAt_get {f : ReaderState → Reader β} (hf : AcceptsAt s (f s) rest Q) :
    AcceptsAt s (get >>= f) rest Q :=
  acceptsAt_of_run rfl hf

theorem acceptsAt_spanFrom {start : Span} {f : Span → Reader β}
    (hf : ∀ span, AcceptsAt s (f span) rest Q) : AcceptsAt s (spanFrom start >>= f) rest Q :=
  acceptsAt_of_run (run_spanFrom start) (hf _)

theorem acceptsAt_advance {f : Unit → Reader β} (hf : AcceptsAt s.next (f ()) rest Q) :
    AcceptsAt s (advance >>= f) rest Q :=
  acceptsAt_of_run run_advance hf

theorem acceptsAt_eat_of_eq {f : Bool → Reader β} (hs : s.kinds = .symbol y :: us)
    (hf : AcceptsAt s.next (f true) rest Q) : AcceptsAt s (eat y >>= f) rest Q :=
  acceptsAt_of_run (run_eat_of_eq (s.symbol?_of_kinds hs)) hf

theorem acceptsAt_eat_of_ne {f : Bool → Reader β} (hs : s.kinds = k :: us) (hk : k ≠ .symbol y)
    (hf : AcceptsAt s (f false) rest Q) : AcceptsAt s (eat y >>= f) rest Q := by
  refine acceptsAt_of_run (run_eat_of_ne ?_) hf
  rwa [s.symbol?_of_kinds hs, ne_eq, TokenKind.symbol?_eq_some_iff]

theorem acceptsAt_expect {f : Unit → Reader β} (hs : s.kinds = .symbol y :: us)
    (hf : AcceptsAt s.next (f ()) rest Q) : AcceptsAt s (expect y >>= f) rest Q :=
  acceptsAt_of_run (run_expect_of_eq (s.symbol?_of_kinds hs)) hf

end Reader

end TextAdventure
