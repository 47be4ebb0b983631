import Mathlib.Data.List.Forall2
import TextAdventure.Proofs.Expr.Grammar
import TextAdventure.Proofs.Expr.Reading
import TextAdventure.Proofs.Expr.Soundness

/-! # What each reader accepts

A reader accepts tokens for which a tree is derived if the readers that it calls do, and if the token
that comes after them does not go on with what was read. There is one lemma for each rule of the grammar.
-/
namespace TextAdventure

namespace Reader

open TextAdventure.Expr (Derives Level Listed Tree)

variable {α β : Type} {s : ReaderState} {rest : List TokenKind}

section Items

variable {P : β → α → Prop} {tokens : β → List TokenKind} {separator : Symbol}
  {step : List α → Reader (Option (List α))} {trailing : List TokenKind}

theorem accepts_items {parts : List β} (hrest : rest ≠ [])
    (hnext : ∀ p ∈ parts, ∀ us, us = trailing ++ rest ∨ (∃ ks, us = .symbol separator :: ks) →
      ∀ as, Accepts (step as) (.symbol separator :: tokens p) us
        fun r => ∃ a, r = some (as ++ [a]) ∧ P p a)
    (hlast : ∀ as, Accepts (step as) trailing rest (· = none)) (as : List α) (rounds : Nat)
    (hs : s.kinds = (parts.flatMap fun p => .symbol separator :: tokens p) ++ (trailing ++ rest))
    (hrounds : s.tokens.length ≤ rounds) :
    AcceptsAt s (loopFor step rounds as) rest fun bs => ∃ cs, bs = as ++ cs ∧
      List.Forall₂ P parts cs := by
  induction rounds generalizing s parts as with
  | zero =>
    rw [s.length_tokens, hs] at hrounds
    have hpos := List.length_pos_iff.mpr hrest
    simp only [List.length_append] at hrounds
    omega
  | succ rounds ih =>
    rw [loopFor]
    cases parts with
    | nil =>
      refine (hlast as s hs).bind ?_
      rintro _ t ht rfl
      exact acceptsAt_pure ht ⟨[], by simp, .nil⟩
    | cons p parts =>
      have hs' : s.kinds = (.symbol separator :: tokens p) ++
          ((parts.flatMap fun p => .symbol separator :: tokens p) ++ (trailing ++ rest)) := by
        simpa using hs
      refine (hnext p List.mem_cons_self _ ?_ as s hs').bind ?_
      · cases parts with
        | nil => exact .inl rfl
        | cons q parts => exact .inr ⟨_, rfl⟩
      · rintro _ t ht ⟨a, rfl, ha⟩
        have hlen : t.tokens.length ≤ rounds := by
          have hle := hrounds
          rw [s.length_tokens, hs', ← ht, List.length_append, List.length_cons,
            ← t.length_tokens] at hle
          omega
        refine (ih (fun q hq => hnext q (List.mem_cons_of_mem p hq)) (as ++ [a]) ht hlen).imp ?_
        rintro bs ⟨cs, rfl, hcs⟩
        exact ⟨a :: cs, by simp, .cons ha hcs⟩

/-- A first item and a loop that reads the rest, if an item may be followed by a separator and by what
comes after all of them. -/
theorem acceptsAt_listed {γ : Type} {p : β} {parts : List β} {item : Reader α} {ts us : List TokenKind}
    {f : α → List α → Reader γ} {F : List TokenKind → Prop} {Q : γ → Prop}
    (hseparator : ∀ ks, F (.symbol separator :: ks)) (hrest : F rest) (hne : rest ≠ [])
    (hitem : ∀ q ∈ p :: parts, ∀ us, F us → Accepts item (tokens q) us (P q))
    (hnext : ∀ q ∈ p :: parts, ∀ us, Accepts item (tokens q) us (P q) → ∀ as,
      Accepts (step as) (.symbol separator :: tokens q) us fun r => ∃ a, r = some (as ++ [a]) ∧ P q a)
    (hlast : ∀ trailing, trailing = [] ∨ trailing = [.symbol separator] → ∀ as,
      Accepts (step as) trailing rest (· = none))
    (hts : Listed separator ((p :: parts).map tokens) ts) (hs : s.kinds = ts ++ rest)
    (hf : ∀ a as t, t.kinds = rest → List.Forall₂ P (p :: parts) (a :: as) →
      AcceptsAt t (f a (a :: as)) us Q) :
    AcceptsAt s (do let a ← item; let as ← loop step [a]; f a as) us Q := by
  obtain ⟨trailing, htrailing, rfl⟩ := hts.exists_trailing
  have hsplit : s.kinds = tokens p ++ ((parts.flatMap fun q => .symbol separator :: tokens q) ++
      (trailing ++ rest)) := by
    simpa [List.flatMap_map] using hs
  have hend : F (trailing ++ rest) := by
    rcases htrailing with rfl | rfl
    · exact hrest
    · exact hseparator rest
  have hfollow : F ((parts.flatMap fun q => .symbol separator :: tokens q) ++ (trailing ++ rest)) := by
    cases parts with
    | nil => exact hend
    | cons q parts => exact hseparator _
  refine (hitem p List.mem_cons_self _ hfollow s hsplit).bind fun a t ht ha => ?_
  have hloop : AcceptsAt t (loop step [a]) rest fun bs =>
      ∃ as, bs = [a] ++ as ∧ List.Forall₂ P parts as := by
    refine acceptsAt_get (accepts_items hne ?_ (hlast trailing htrailing) [a] t.tokens.length ht
      (Nat.le_refl _))
    intro q hq vs hvs
    have hq' := List.mem_cons_of_mem p hq
    refine hnext q hq' vs (hitem q hq' vs ?_)
    rcases hvs with rfl | ⟨ks, rfl⟩
    · exact hend
    · exact hseparator ks
  refine hloop.bind ?_
  rintro _ u hu ⟨as, rfl, has⟩
  exact hf a as u hu (.cons ha has)

end Items

variable {P : β → α → Prop} {tokens : β → List TokenKind} {item : Reader α} {close : Symbol}

theorem accepts_nextItem {p : β} {us : List TokenKind} (hitem : Accepts item (tokens p) us (P p))
    (hstart : ∃ k ks, tokens p = k :: ks ∧ k ≠ .symbol close) (as : List α) :
    Accepts (nextItem close item as) (.symbol .comma :: tokens p) us
      fun r => ∃ a, r = some (as ++ [a]) ∧ P p a := by
  intro s hs
  unfold nextItem
  refine acceptsAt_eat_of_eq hs (acceptsAt_symbol? ?_)
  obtain ⟨k, ks, hp, hk⟩ := hstart
  have hnext := s.kinds_next hs
  have hclose : s.next.symbol? ≠ some close := by
    rw [hp] at hnext
    rwa [s.next.symbol?_of_kinds hnext, ne_eq, TokenKind.symbol?_eq_some_iff]
  rw [if_neg hclose]
  refine (hitem s.next hnext).bind fun a t ht ha => acceptsAt_pure ht ?_
  exact ⟨a, rfl, ha⟩

theorem accepts_nextItem_last {trailing us : List TokenKind}
    (ht : trailing = [] ∨ trailing = [.symbol .comma]) (hclose : close ≠ .comma) (as : List α) :
    Accepts (nextItem close item as) trailing (.symbol close :: us) (· = none) := by
  intro s hs
  unfold nextItem
  rcases ht with rfl | rfl
  · exact acceptsAt_eat_of_ne hs (by simpa using hclose) (acceptsAt_pure hs rfl)
  · have hnext := s.kinds_next hs
    have hsymbol : s.next.symbol? = some close := s.next.symbol?_of_kinds hnext
    refine acceptsAt_eat_of_eq hs (acceptsAt_symbol? ?_)
    rw [if_pos hsymbol]
    exact acceptsAt_pure hnext rfl

theorem accepts_separated {parts : List β} {ts : List TokenKind}
    (hitem : ∀ p ∈ parts, ∀ us, (∃ ks, us = .symbol .comma :: ks ∨ us = .symbol close :: ks) →
      Accepts item (tokens p) us (P p))
    (hstart : ∀ p ∈ parts, ∃ k ks, tokens p = k :: ks ∧ k ≠ .symbol close)
    (hclose : close ≠ .comma) (hts : Listed .comma (parts.map tokens) ts) :
    Accepts (separated close item) (ts ++ [.symbol close]) rest
      fun as => List.Forall₂ P parts as := by
  intro s hs
  unfold separated
  cases parts with
  | nil =>
    cases hts
    exact acceptsAt_eat_of_eq hs (acceptsAt_pure (s.kinds_next hs) .nil)
  | cons p parts =>
    obtain ⟨k, ks, hp, hk⟩ := hstart p List.mem_cons_self
    have hhead : ∃ us, s.kinds = k :: us := by
      obtain ⟨trailing, _, rfl⟩ := hts.exists_trailing
      exact ⟨_, by rw [hs, hp]; rfl⟩
    obtain ⟨_, hhead⟩ := hhead
    refine acceptsAt_eat_of_ne hhead hk ?_
    refine acceptsAt_listed (F := fun us => ∃ ks, us = .symbol .comma :: ks ∨ us = .symbol close :: ks)
      (fun ks => ⟨ks, .inl rfl⟩) ⟨rest, .inr rfl⟩ (List.cons_ne_nil _ _) hitem ?_ ?_ hts
      (by simpa using hs) ?_
    · exact fun q hq us hitem as => accepts_nextItem hitem (hstart q hq) as
    · exact fun trailing htrailing as => accepts_nextItem_last htrailing hclose as
    · exact fun a as t ht has => acceptsAt_expect ht (acceptsAt_pure (t.kinds_next ht) has)

/-- The symbols that continue what was read at a level. -/
def Continues : Level → Symbol → Prop
  | .unary, y | .postfixForm, y => y ∈ [.leftParen, .dot, .leftBracket]
  | .operators level, y =>
    y ∈ [.leftParen, .dot, .leftBracket] ∨ ∃ l op, Expr.precedence y = some (l, op) ∧ level ≤ l
  | .conditional, y =>
    y ∈ [.leftParen, .dot, .leftBracket, .question] ∨ (Expr.precedence y).isSome = true
  | .assignment, y =>
    y ∈ [.leftParen, .dot, .leftBracket, .question, .assign, .plusAssign, .minusAssign] ∨
      (Expr.precedence y).isSome = true
  | _, _ => False

/-- The token ends what was read at a level. A sequence may end with a semicolon, so what comes after it
has to be a token that no item begins with. -/
def Ends : Level → TokenKind → Prop
  | .action, k => k = .eof
  | .sequence, k => k = .eof ∨ k = .symbol .rightParen ∨ k = .symbol .fatArrow
  | level, k => ∀ y, k = .symbol y → ¬ Continues level y

/-- What follows begins with a token that ends the level. -/
def Follows (level : Level) (rest : List TokenKind) : Prop :=
  ∃ k ks, rest = k :: ks ∧ Ends level k

theorem ends_assignment_of_closing {y : Symbol} (h : y ∈ [.rightParen, .rightBracket, .rightBrace,
    .comma, .semicolon, .colon, .fatArrow]) : Ends .assignment (.symbol y) := by
  simp only [List.mem_cons, List.not_mem_nil, or_false] at h
  rcases h with rfl | rfl | rfl | rfl | rfl | rfl | rfl <;> simp [Ends, Continues, Expr.precedence]

theorem ends_assignment_of_sequence {k : TokenKind} (h : Ends .sequence k) : Ends .assignment k := by
  rcases h with rfl | rfl | rfl
  · simp [Ends]
  · exact ends_assignment_of_closing (by simp)
  · exact ends_assignment_of_closing (by simp)

theorem accepts_nextInSequence {nested : Reader Expr} {us vs : List TokenKind} {t : Tree}
    (hn : Accepts nested us vs (·.tree = t)) (hstart : ∃ k ks, us = k :: ks ∧ Expr.Starts k)
    (es : List Expr) :
    Accepts (nextInSequence nested es) (.symbol .semicolon :: us) vs
      fun r => ∃ e, r = some (es ++ [e]) ∧ e.tree = t := by
  intro s hs
  unfold nextInSequence
  refine acceptsAt_eat_of_eq hs (acceptsAt_current ?_)
  obtain ⟨k, ks, hus, hk⟩ := hstart
  have hnext := s.kinds_next hs
  have hcurrent : s.next.current.kind = k := by
    rw [hus] at hnext
    exact s.next.current_of_kinds hnext
  rw [hcurrent]
  split
  iterate 4 simp [Expr.Starts] at hk
  refine (hn s.next hnext).bind fun e t ht he => acceptsAt_pure ht ?_
  exact ⟨e, rfl, he⟩

theorem accepts_nextInSequence_last {nested : Reader Expr} {trailing : List TokenKind}
    (ht : trailing = [] ∨ trailing = [.symbol .semicolon]) (hrest : Follows .sequence rest)
    (es : List Expr) : Accepts (nextInSequence nested es) trailing rest (· = none) := by
  intro s hs
  unfold nextInSequence
  obtain ⟨k, ks, rfl, hk⟩ := hrest
  rcases ht with rfl | rfl
  · refine acceptsAt_eat_of_ne hs ?_ (acceptsAt_pure hs rfl)
    rcases hk with rfl | rfl | rfl <;> simp
  · have hnext := s.kinds_next hs
    refine acceptsAt_eat_of_eq hs (acceptsAt_current ?_)
    rw [s.next.current_of_kinds hnext]
    rcases hk with rfl | rfl | rfl <;> exact acceptsAt_pure hnext rfl

theorem map_tree_of_forall₂ {parts : List (List TokenKind × Tree)} {es : List Expr}
    (h : List.Forall₂ (fun p e => e.tree = p.2) parts es) : es.map Expr.tree = parts.map Prod.snd := by
  induction h with
  | nil => rfl
  | cons he _ ih => rw [List.map_cons, List.map_cons, he, ih]

theorem accepts_sequence {nested : Reader Expr} {parts : List (List TokenKind × Tree)}
    {ts : List TokenKind} (hne : parts ≠ [])
    (hn : ∀ p ∈ parts, ∀ us, Follows .assignment us → Accepts nested p.1 us (·.tree = p.2))
    (hstart : ∀ p ∈ parts, ∃ k ks, p.1 = k :: ks ∧ Expr.Starts k)
    (hts : Listed .semicolon (parts.map Prod.fst) ts) (hrest : Follows .sequence rest) :
    Accepts (sequence nested) ts rest (·.tree = .ofItems (parts.map Prod.snd)) := by
  intro s hs
  unfold sequence
  cases parts with
  | nil => exact absurd rfl hne
  | cons p parts =>
    have hsemicolon := ends_assignment_of_closing (y := .semicolon) (by simp)
    obtain ⟨k, ks, rfl, hk⟩ := hrest
    refine acceptsAt_listed (F := Follows .assignment) (fun ks => ⟨_, ks, rfl, hsemicolon⟩)
      ⟨k, ks, rfl, ends_assignment_of_sequence hk⟩ (List.cons_ne_nil k ks) hn ?_ ?_ hts hs ?_
    · exact fun q hq us hitem es => accepts_nextInSequence hitem (hstart q hq) es
    · exact fun trailing ht es => accepts_nextInSequence_last ht ⟨k, ks, rfl, hk⟩ es
    · intro e es t ht hes
      obtain ⟨e', hrun, htree⟩ := run_sequenceFrom e.span (e :: es) t
      exact ⟨e', t, hrun, ht, htree.trans (congrArg Tree.ofItems (map_tree_of_forall₂ hes))⟩

/-- The reader comes to a round of the loop with the tree, having read the tokens of `ts`. -/
def Resumes (m : Reader Expr) (step : Expr → Reader (Option Expr)) (ts rest : List TokenKind)
    (tree : Tree) : Prop :=
  ∀ s : ReaderState, s.kinds = ts ++ rest → ∃ e u rounds, m.run s = (loopFor step rounds e).run u ∧
    u.kinds = rest ∧ u.tokens.length ≤ rounds ∧ e.tree = tree

theorem run_loopFor_of_none {step : α → Reader (Option α)} {a : α} {u : ReaderState}
    (h : (step a).run u = .ok (none, u)) (rounds : Nat) :
    (loopFor step rounds a).run u = .ok (a, u) := by
  cases rounds with
  | zero => rfl
  | succ rounds => rw [loopFor, run_bind_of_ok h]; rfl

variable {m : Reader Expr} {step : Expr → Reader (Option Expr)} {ts us : List TokenKind}
  {tree : Tree}

theorem Resumes.accepts (h : Resumes m step ts rest tree)
    (hstop : ∀ e u, u.kinds = rest → (step e).run u = .ok (none, u)) :
    Accepts m ts rest (·.tree = tree) := by
  intro s hs
  obtain ⟨e, u, rounds, hrun, hu, _, he⟩ := h s hs
  exact ⟨e, u, hrun.trans (run_loopFor_of_none (hstop e u hu) rounds), hu, he⟩

theorem Resumes.round {tree' : Tree} (h : Resumes m step ts (us ++ rest) tree) (hus : us ≠ [])
    (hstep : ∀ e, e.tree = tree → Accepts (step e) us rest
      fun r => ∃ f, r = some f ∧ f.tree = tree') : Resumes m step (ts ++ us) rest tree' := by
  intro s hs
  obtain ⟨e, u, rounds, hrun, hu, hrounds, he⟩ := h s (by rw [hs, List.append_assoc])
  obtain ⟨_, v, hstep, hv, f, rfl, hf⟩ := hstep e he u hu
  have hpos := List.length_pos_iff.mpr hus
  have hlen : u.tokens.length = us.length + v.tokens.length := by
    rw [u.length_tokens, v.length_tokens, hu, hv, List.length_append]
  cases rounds with
  | zero => omega
  | succ rounds =>
    refine ⟨f, v, rounds, ?_, hv, by omega, hf⟩
    rw [hrun, loopFor, run_bind_of_ok hstep]

theorem Accepts.resumes_loop (h : Accepts m ts rest (·.tree = tree)) :
    Resumes (do loop step (← m)) step ts rest tree := by
  intro s hs
  obtain ⟨e, u, hrun, hu, he⟩ := h s hs
  exact ⟨e, u, u.tokens.length, by rw [run_bind_of_ok hrun]; rfl, hu, Nat.le_refl _, he⟩

section Primary

variable {nested : Reader Expr} {parts : List (List TokenKind × Tree)}

theorem accepts_literal {k : TokenKind} {value : Literal} (h : Expr.literal? k = some value) :
    Accepts (primary nested) [k] rest (·.tree = .literal value) := by
  intro s hs
  have hliteral : AcceptsAt s (literal value) rest (·.tree = .literal value) :=
    acceptsAt_current (acceptsAt_advance (acceptsAt_pure (s.kinds_next hs) rfl))
  unfold primary
  refine acceptsAt_current ?_
  rw [s.current_of_kinds hs]
  cases k <;> cases h <;> exact hliteral

theorem accepts_identifier {name : String} :
    Accepts (primary nested) [.identifier name] rest (·.tree = .identifier name) := by
  intro s hs
  unfold primary
  refine acceptsAt_current ?_
  rw [s.current_of_kinds hs]
  exact acceptsAt_advance (acceptsAt_pure (s.kinds_next hs) rfl)

theorem accepts_parens
    (h : Accepts (sequence nested) ts (.symbol .rightParen :: rest) (·.tree = tree)) :
    Accepts (primary nested) (.symbol .leftParen :: ts ++ [.symbol .rightParen]) rest
      (·.tree = tree) := by
  intro s hs
  have hnext : s.next.kinds = ts ++ .symbol .rightParen :: rest := by
    rw [s.kinds_next hs]
    simp
  unfold primary
  refine acceptsAt_current ?_
  rw [s.current_of_kinds hs]
  refine acceptsAt_advance ((h s.next hnext).bind fun e t ht he => ?_)
  exact acceptsAt_expect ht (acceptsAt_pure (t.kinds_next ht) he)

theorem exists_ne_closing {k : TokenKind} {ks : List TokenKind} (hk : Expr.Starts k)
    (hclose : close ∈ [.rightParen, .rightBracket, .rightBrace]) :
    ∃ k' ks', k :: ks = k' :: ks' ∧ k' ≠ .symbol close := by
  refine ⟨k, ks, rfl, ?_⟩
  rintro rfl
  simp only [List.mem_cons, List.not_mem_nil, or_false] at hclose
  rcases hclose with rfl | rfl | rfl <;> simp [Expr.Starts] at hk

theorem ne_comma_of_closing (hclose : close ∈ [.rightParen, .rightBracket, .rightBrace]) :
    close ≠ .comma := by
  rintro rfl
  simp at hclose

theorem follows_assignment_of_listed (hclose : close ∈ [.rightParen, .rightBracket, .rightBrace])
    (h : ∃ ks, us = .symbol .comma :: ks ∨ us = .symbol close :: ks) : Follows .assignment us := by
  obtain ⟨ks, rfl | rfl⟩ := h
  · exact ⟨_, ks, rfl, ends_assignment_of_closing (by simp)⟩
  · exact ⟨_, ks, rfl, ends_assignment_of_closing (List.mem_append_left _ hclose)⟩

theorem accepts_list (hclose : close ∈ [.rightParen, .rightBracket, .rightBrace])
    (hn : ∀ p ∈ parts, ∀ us, Follows .assignment us → Accepts nested p.1 us (·.tree = p.2))
    (hstart : ∀ p ∈ parts, ∃ k ks, p.1 = k :: ks ∧ Expr.Starts k)
    (hts : Listed .comma (parts.map Prod.fst) ts) :
    Accepts (separated close nested) (ts ++ [.symbol close]) rest
      fun es => es.map Expr.tree = parts.map Prod.snd := by
  have hseparated : Accepts (separated close nested) (ts ++ [.symbol close]) rest
      fun es => List.Forall₂ (fun p e => e.tree = p.2) parts es := by
    refine accepts_separated ?_ ?_ (ne_comma_of_closing hclose) hts
    · intro p hp us hus
      exact hn p hp us (follows_assignment_of_listed hclose hus)
    · intro p hp
      obtain ⟨k, ks, hp, hk⟩ := hstart p hp
      rw [hp]
      exact exists_ne_closing hk hclose
  exact fun s hs => (hseparated s hs).imp fun es => map_tree_of_forall₂

theorem accepts_array
    (hn : ∀ p ∈ parts, ∀ us, Follows .assignment us → Accepts nested p.1 us (·.tree = p.2))
    (hstart : ∀ p ∈ parts, ∃ k ks, p.1 = k :: ks ∧ Expr.Starts k)
    (hts : Listed .comma (parts.map Prod.fst) ts) :
    Accepts (primary nested) (.symbol .leftBracket :: ts ++ [.symbol .rightBracket]) rest
      (·.tree = .array (parts.map Prod.snd)) := by
  intro s hs
  unfold primary
  refine acceptsAt_current ?_
  rw [s.current_of_kinds hs]
  refine acceptsAt_advance ?_
  refine (accepts_list (by simp) hn hstart hts s.next (s.kinds_next hs)).bind fun es t ht hes => ?_
  exact acceptsAt_spanFrom fun span => acceptsAt_pure ht (by simp [Expr.tree, hes])

theorem accepts_objectKey {k : TokenKind} {key : String} (h : Expr.key? k = some key) :
    Accepts objectKey [k] rest (· = key) := by
  intro s hs
  unfold objectKey
  refine acceptsAt_current ?_
  rw [s.current_of_kinds hs]
  cases k <;> cases h <;> exact acceptsAt_advance (acceptsAt_pure (s.kinds_next hs) rfl)

theorem accepts_objectEntry {entry : Expr.Entry} (hk : Expr.key? entry.keyToken = some entry.key)
    (hn : Accepts nested entry.value us (·.tree = entry.tree)) :
    Accepts (objectEntry nested) entry.tokens us
      fun found => (found.1, found.2.tree) = (entry.key, entry.tree) := by
  intro s hs
  unfold objectEntry
  refine (accepts_objectKey hk s hs).bind ?_
  rintro _ t ht rfl
  refine acceptsAt_expect ht ((hn t.next (t.kinds_next ht)).bind fun e u hu he => ?_)
  exact acceptsAt_pure hu (by rw [he])

theorem map_tree_of_forall₂_entries {entries : List Expr.Entry} {es : List (String × Expr)}
    (h : List.Forall₂ (fun p found => (found.1, found.2.tree) = (p.key, p.tree)) entries es) :
    (es.map fun found => (found.1, found.2.tree)) = entries.map fun p => (p.key, p.tree) := by
  induction h with
  | nil => rfl
  | cons he _ ih => rw [List.map_cons, List.map_cons, he, ih]

theorem accepts_object {entries : List Expr.Entry}
    (hk : ∀ p ∈ entries, Expr.key? p.keyToken = some p.key)
    (hn : ∀ p ∈ entries, ∀ us, Follows .assignment us → Accepts nested p.value us (·.tree = p.tree))
    (hts : Listed .comma (entries.map Expr.Entry.tokens) ts) :
    Accepts (primary nested) (.symbol .leftBrace :: ts ++ [.symbol .rightBrace]) rest
      (·.tree = .object (entries.map fun p => (p.key, p.tree))) := by
  have hclose : Symbol.rightBrace ∈ [.rightParen, .rightBracket, .rightBrace] := by simp
  have hseparated : Accepts (separated .rightBrace (objectEntry nested))
      (ts ++ [.symbol .rightBrace]) rest fun es =>
        List.Forall₂ (fun p found => (found.1, found.2.tree) = (p.key, p.tree)) entries es := by
    refine accepts_separated ?_ ?_ (ne_comma_of_closing hclose) hts
    · intro p hp us hus
      exact accepts_objectEntry (hk p hp) (hn p hp us (follows_assignment_of_listed hclose hus))
    · intro p hp
      refine ⟨_, _, rfl, fun h => ?_⟩
      have hkey := hk p hp
      rw [h] at hkey
      cases hkey
  intro s hs
  unfold primary
  refine acceptsAt_current ?_
  rw [s.current_of_kinds hs]
  refine acceptsAt_advance ((hseparated s.next (s.kinds_next hs)).bind fun es t ht hes => ?_)
  refine acceptsAt_spanFrom fun span => acceptsAt_pure ht ?_
  simp [Expr.tree, map_tree_of_forall₂_entries hes]

theorem resumes_postfix (h : Accepts (primary nested) ts rest (·.tree = tree)) :
    Resumes (postfixExpr nested) (postfixStep nested) ts rest tree :=
  h.resumes_loop

theorem resumes_call {callee : Tree}
    (hc : Resumes (postfixExpr nested) (postfixStep nested) ts
      (.symbol .leftParen :: us ++ [.symbol .rightParen] ++ rest) callee)
    (hn : ∀ p ∈ parts, ∀ us, Follows .assignment us → Accepts nested p.1 us (·.tree = p.2))
    (hstart : ∀ p ∈ parts, ∃ k ks, p.1 = k :: ks ∧ Expr.Starts k)
    (hus : Listed .comma (parts.map Prod.fst) us) :
    Resumes (postfixExpr nested) (postfixStep nested)
      (ts ++ (.symbol .leftParen :: us ++ [.symbol .rightParen])) rest
      (.call callee (parts.map Prod.snd)) := by
  refine hc.round (by simp) fun e he s hs => ?_
  unfold postfixStep
  refine acceptsAt_symbol? ?_
  rw [s.symbol?_of_kinds hs]
  refine acceptsAt_advance ?_
  refine (accepts_list (by simp) hn hstart hus s.next (s.kinds_next hs)).bind fun es t ht hes => ?_
  refine acceptsAt_spanFrom fun span => acceptsAt_pure ht ⟨_, rfl, ?_⟩
  simp [Expr.tree, he, hes]

theorem resumes_member {container : Tree} {name : String}
    (h : Resumes (postfixExpr nested) (postfixStep nested) ts
      ([.symbol .dot, .identifier name] ++ rest) container) :
    Resumes (postfixExpr nested) (postfixStep nested) (ts ++ [.symbol .dot, .identifier name]) rest
      (.member container name) := by
  refine h.round (by simp) fun e he s hs => ?_
  have hnext := s.kinds_next hs
  unfold postfixStep
  refine acceptsAt_symbol? ?_
  rw [s.symbol?_of_kinds hs]
  refine acceptsAt_advance (acceptsAt_current ?_)
  rw [s.next.current_of_kinds hnext]
  refine acceptsAt_advance (acceptsAt_spanFrom fun span => ?_)
  exact acceptsAt_pure (s.next.kinds_next hnext) ⟨_, rfl, by simp [Expr.tree, he]⟩

theorem resumes_element {container key : Tree}
    (h : Resumes (postfixExpr nested) (postfixStep nested) ts
      (.symbol .leftBracket :: us ++ [.symbol .rightBracket] ++ rest) container)
    (hn : Accepts nested us (.symbol .rightBracket :: rest) (·.tree = key)) :
    Resumes (postfixExpr nested) (postfixStep nested)
      (ts ++ (.symbol .leftBracket :: us ++ [.symbol .rightBracket])) rest (.element container key) := by
  refine h.round (by simp) fun e he s hs => ?_
  have hnext : s.next.kinds = us ++ .symbol .rightBracket :: rest := by
    rw [s.kinds_next hs]
    simp
  unfold postfixStep
  refine acceptsAt_symbol? ?_
  rw [s.symbol?_of_kinds hs]
  refine acceptsAt_advance ((hn s.next hnext).bind fun key t ht hkey => ?_)
  refine acceptsAt_expect ht (acceptsAt_spanFrom fun span => ?_)
  exact acceptsAt_pure (t.kinds_next ht) ⟨_, rfl, by simp [Expr.tree, he, hkey]⟩

theorem run_postfixStep_of_follows {e : Expr} (hs : s.kinds = rest) (h : Follows .postfixForm rest) :
    (postfixStep nested e).run s = .ok (none, s) := by
  obtain ⟨k, ks, rfl, hk⟩ := h
  unfold postfixStep
  rw [run_bind_of_ok run_symbol?, s.symbol?_of_kinds hs]
  cases k with
  | symbol y =>
    have hy := hk y rfl
    simp only [Continues, List.mem_cons, List.not_mem_nil, or_false, not_or] at hy
    obtain ⟨hparen, hdot, hbracket⟩ := hy
    unfold TokenKind.symbol?
    split
    next h => exact absurd (Option.some.inj h) hparen
    next h => exact absurd (Option.some.inj h) hdot
    next h => exact absurd (Option.some.inj h) hbracket
    next => rfl
  | _ => rfl

end Primary

theorem prefixOp?_of_prefixes {sign : Symbol} {op : UnaryOp} (h : Expr.Prefixes sign op) :
    prefixOp? sign = some op := by
  cases h <;> rfl

theorem run_nextPrefix_of_none (ops : List (UnaryOp × Span))
    (h : s.symbol?.bind prefixOp? = none) : (nextPrefix ops).run s = .ok (none, s) := by
  unfold nextPrefix
  rw [run_bind_of_ok run_current, run_bind_of_ok run_symbol?, h]
  rfl

theorem run_nextPrefix_of_some {op : UnaryOp} (ops : List (UnaryOp × Span))
    (h : s.symbol?.bind prefixOp? = some op) :
    (nextPrefix ops).run s = .ok (some (ops ++ [(op, s.current.span)]), s.next) := by
  unfold nextPrefix
  rw [run_bind_of_ok run_current, run_bind_of_ok run_symbol?, h]
  rfl

theorem run_prefixes_append (rounds : Nat) (ops acc : List (UnaryOp × Span)) (s : ReaderState) :
    ∃ found t, (loopFor nextPrefix rounds acc).run s = .ok (acc ++ found, t) ∧
      (loopFor nextPrefix rounds (ops ++ acc)).run s = .ok (ops ++ acc ++ found, t) := by
  induction rounds generalizing acc s with
  | zero => exact ⟨[], s, by simp [loopFor]; rfl, by simp [loopFor]; rfl⟩
  | succ rounds ih =>
    simp only [loopFor]
    cases hop : s.symbol?.bind prefixOp? with
    | none =>
      rw [run_bind_of_ok (run_nextPrefix_of_none acc hop),
        run_bind_of_ok (run_nextPrefix_of_none (ops ++ acc) hop)]
      exact ⟨[], s, by simp; rfl, by simp; rfl⟩
    | some op =>
      rw [run_bind_of_ok (run_nextPrefix_of_some acc hop),
        run_bind_of_ok (run_nextPrefix_of_some (ops ++ acc) hop)]
      obtain ⟨found, t, hacc, hops⟩ := ih (acc ++ [(op, s.current.span)]) s.next
      exact ⟨(op, s.current.span) :: found, t, by simpa using hacc, by simpa using hops⟩

variable {nested : Reader Expr}

theorem accepts_unary_plain (hts : ∃ k ks, ts = k :: ks ∧ k.symbol?.bind prefixOp? = none)
    (h : Accepts (postfixExpr nested) ts rest (·.tree = tree)) :
    Accepts (unary nested) ts rest (·.tree = tree) := by
  intro s hs
  obtain ⟨k, ks, rfl, hk⟩ := hts
  have hprefix : prefixOps.run s = .ok ([], s) := by
    refine run_loopFor_of_none (run_nextPrefix_of_none [] ?_) s.tokens.length
    rw [s.symbol?_of_kinds hs, hk]
  unfold unary
  refine acceptsAt_of_run hprefix ((h s hs).bind fun e t ht he => acceptsAt_get ?_)
  exact acceptsAt_pure ht he

theorem run_prefixOps_of_some {op : UnaryOp} (h : s.symbol?.bind prefixOp? = some op)
    (hlen : s.tokens.length = s.next.tokens.length + 1) :
    ∃ found t, prefixOps.run s.next = .ok (found, t) ∧
      prefixOps.run s = .ok ((op, s.current.span) :: found, t) := by
  obtain ⟨found, t, hfound, hops⟩ :=
    run_prefixes_append s.next.tokens.length [(op, s.current.span)] [] s.next
  refine ⟨found, t, hfound, ?_⟩
  have hrun : prefixOps.run s = (loopFor nextPrefix (s.next.tokens.length + 1) []).run s := by
    rw [← hlen]
    rfl
  rw [hrun, loopFor, run_bind_of_ok (run_nextPrefix_of_some [] h)]
  exact hops

theorem accepts_unary_prefixed {sign : Symbol} {op : UnaryOp} (hop : Expr.Prefixes sign op)
    (h : Accepts (unary nested) ts rest (·.tree = tree)) :
    Accepts (unary nested) (.symbol sign :: ts) rest (·.tree = .unary op tree) := by
  intro s hs
  have hsign : s.symbol?.bind prefixOp? = some op := by
    rw [s.symbol?_of_kinds hs]
    exact prefixOp?_of_prefixes hop
  have hlen : s.tokens.length = s.next.tokens.length + 1 := by
    rw [s.length_tokens, s.next.length_tokens, hs, s.kinds_next hs]
    simp
  obtain ⟨found, u, hfound, hops⟩ := run_prefixOps_of_some hsign hlen
  obtain ⟨e, t, hrun, ht, he⟩ := h s.next (s.kinds_next hs)
  unfold unary at hrun ⊢
  rw [run_bind_of_ok hfound] at hrun
  obtain ⟨operand, v, hoperand, hrun⟩ := run_bind_eq_ok_iff.mp hrun
  cases hrun
  refine acceptsAt_of_run hops (acceptsAt_of_run hoperand (acceptsAt_get (acceptsAt_pure ht ?_)))
  simpa [Expr.tree] using he

/-- The round of the loop of the loosest level. -/
def operatorStep (operand : Reader Expr) : List (List (Symbol × Operator)) → Expr →
    Reader (Option Expr)
  | [] => fun _ => return none
  | ops :: tighter => nextOperand ops (operators operand tighter)

variable {operand : Reader Expr} {level : Nat}

theorem run_operatorStep_of_follows {e : Expr} (hs : s.kinds = rest)
    (h : Follows (.operators level) rest) :
    (operatorStep operand (operatorLevels.drop level) e).run s = .ok (none, s) := by
  obtain ⟨k, ks, rfl, hk⟩ := h
  by_cases hlevel : level < Expr.operatorLevelCount
  · obtain ⟨ops, hdrop, hops⟩ := exists_operatorLevel hlevel
    have hnone : s.symbol?.bind (List.lookup · ops) = none := by
      rw [s.symbol?_of_kinds hs, Option.bind_eq_none_iff]
      intro y hy
      rw [Option.eq_none_iff_forall_ne_some]
      intro op hop
      exact hk y (TokenKind.symbol?_eq_some_iff.mp hy)
        (.inr ⟨level, op, (hops y op).mp hop, Nat.le_refl _⟩)
    rw [hdrop, operatorStep]
    unfold nextOperand
    rw [run_bind_of_ok run_symbol?, hnone]
    rfl
  · have hdrop : operatorLevels.drop level = [] :=
      List.drop_eq_nil_of_le (Nat.not_lt.mp hlevel)
    rw [hdrop]
    rfl

theorem resumes_operand (hlevel : level < Expr.operatorLevelCount)
    (h : Accepts (operators operand (operatorLevels.drop (level + 1))) ts rest (·.tree = tree)) :
    Resumes (operators operand (operatorLevels.drop level))
      (operatorStep operand (operatorLevels.drop level)) ts rest tree := by
  obtain ⟨ops, hdrop, _⟩ := exists_operatorLevel hlevel
  rw [hdrop]
  exact h.resumes_loop

theorem resumes_joined {l r : Tree} {sign : Symbol} {op : Operator}
    (hop : Expr.precedence sign = some (level, op)) (hlevel : level < Expr.operatorLevelCount)
    (hl : Resumes (operators operand (operatorLevels.drop level))
      (operatorStep operand (operatorLevels.drop level)) ts (.symbol sign :: us ++ rest) l)
    (hr : Accepts (operators operand (operatorLevels.drop (level + 1))) us rest (·.tree = r)) :
    Resumes (operators operand (operatorLevels.drop level))
      (operatorStep operand (operatorLevels.drop level)) (ts ++ .symbol sign :: us) rest
      (.join op l r) := by
  refine hl.round (by simp) fun e he s hs => ?_
  obtain ⟨ops, hdrop, hops⟩ := exists_operatorLevel hlevel
  have hsign : s.symbol?.bind (List.lookup · ops) = some op := by
    rw [s.symbol?_of_kinds hs]
    exact (hops sign op).mpr hop
  rw [hdrop, operatorStep]
  unfold nextOperand
  refine acceptsAt_symbol? ?_
  rw [hsign]
  refine acceptsAt_advance ((hr s.next (s.kinds_next hs)).bind fun right t ht hright => ?_)
  exact acceptsAt_pure ht ⟨_, rfl, by simp [he, hright]⟩

theorem accepts_test (hrest : Follows .conditional rest)
    (h : Accepts (operators (unary nested) operatorLevels) ts rest (·.tree = tree)) :
    Accepts (conditional nested) ts rest (·.tree = tree) := by
  intro s hs
  obtain ⟨k, ks, rfl, hk⟩ := hrest
  have hquestion : k ≠ .symbol .question := fun hq => hk _ hq (by simp [Continues])
  unfold conditional
  refine (h s hs).bind fun e t ht he => ?_
  exact acceptsAt_eat_of_ne ht hquestion (acceptsAt_pure ht he)

theorem accepts_conditional {vs : List TokenKind} {t c a : Tree}
    (ht : Accepts (operators (unary nested) operatorLevels) ts
      (.symbol .question :: us ++ .symbol .colon :: vs ++ rest) (·.tree = t))
    (hc : Accepts nested us (.symbol .colon :: vs ++ rest) (·.tree = c))
    (ha : Accepts nested vs rest (·.tree = a)) :
    Accepts (conditional nested) (ts ++ .symbol .question :: us ++ .symbol .colon :: vs) rest
      (·.tree = .conditional t c a) := by
  intro s hs
  unfold conditional
  refine (ht s (by simpa using hs)).bind fun test u hu htest => ?_
  have hnext : u.next.kinds = us ++ (.symbol .colon :: vs ++ rest) := by
    rw [u.kinds_next hu]
    simp
  refine acceptsAt_eat_of_eq hu ((hc u.next hnext).bind fun consequent v hv hconsequent => ?_)
  refine acceptsAt_expect hv ((ha v.next (v.kinds_next hv)).bind fun alternate w hw halternate => ?_)
  exact acceptsAt_pure hw (by simp [Expr.tree, htest, hconsequent, halternate])

theorem assignOp?_of_assigns {sign : Symbol} {op : AssignOp} (h : Expr.Assigns sign op) :
    assignOp? sign = some op := by
  cases h <;> rfl

theorem accepts_value (hrest : Follows .assignment rest)
    (h : Accepts (conditional nested) ts rest (·.tree = tree)) :
    Accepts (assignmentOver nested) ts rest (·.tree = tree) := by
  intro s hs
  obtain ⟨k, ks, rfl, hk⟩ := hrest
  unfold assignmentOver
  refine (h s hs).bind fun e t ht he => acceptsAt_symbol? ?_
  have hnone : t.symbol?.bind assignOp? = none := by
    rw [t.symbol?_of_kinds ht, Option.bind_eq_none_iff]
    intro y hy
    have hcontinues := hk y (TokenKind.symbol?_eq_some_iff.mp hy)
    simp only [Continues, List.mem_cons, List.not_mem_nil, or_false, not_or] at hcontinues
    unfold assignOp?
    split <;> simp_all
  rw [hnone]
  exact acceptsAt_pure ht he

theorem accepts_assign {target v : Tree} {sign : Symbol} {op : AssignOp}
    (ht : Accepts (conditional nested) ts (.symbol sign :: us ++ rest) (·.tree = target))
    (hplace : target.isPlace = true) (hop : Expr.Assigns sign op)
    (hv : Accepts nested us rest (·.tree = v)) :
    Accepts (assignmentOver nested) (ts ++ .symbol sign :: us) rest
      (·.tree = .assign op target v) := by
  intro s hs
  unfold assignmentOver
  refine (ht s (by simpa using hs)).bind fun e t ht he => acceptsAt_symbol? ?_
  have hsign : t.symbol?.bind assignOp? = some op := by
    rw [t.symbol?_of_kinds ht]
    exact assignOp?_of_assigns hop
  have he' : e.isPlace = true := by rw [← Expr.isPlace_tree, he, hplace]
  rw [hsign]
  simp only [he', if_true]
  refine acceptsAt_advance ((hv t.next (t.kinds_next ht)).bind fun value u hu hvalue => ?_)
  exact acceptsAt_pure hu (by simp [Expr.tree, he, hvalue])

theorem accepts_pattern (hrest : Follows .action rest)
    (h : Accepts (sequence nested) ts rest (·.tree = tree)) :
    Accepts (action nested) ts rest (·.tree = tree) := by
  intro s hs
  obtain ⟨k, ks, rfl, rfl⟩ := hrest
  unfold action
  refine (h s hs).bind fun e t ht he => ?_
  exact acceptsAt_eat_of_ne ht (by simp) (acceptsAt_pure ht he)

theorem accepts_arrow {p b : Tree}
    (hp : Accepts (sequence nested) ts (.symbol .fatArrow :: us ++ rest) (·.tree = p))
    (hb : Accepts (sequence nested) us rest (·.tree = b)) :
    Accepts (action nested) (ts ++ .symbol .fatArrow :: us) rest (·.tree = .arrow p b) := by
  intro s hs
  unfold action
  refine (hp s (by simpa using hs)).bind fun pattern t ht hpattern => ?_
  refine acceptsAt_eat_of_eq ht ((hb t.next (t.kinds_next ht)).bind fun body u hu hbody => ?_)
  exact acceptsAt_pure hu (by simp [Expr.tree, hpattern, hbody])

end Reader

end TextAdventure
