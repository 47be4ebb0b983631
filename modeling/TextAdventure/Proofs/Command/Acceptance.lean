import TextAdventure.Command.Pattern

/-! # What matchers accept

A conjunction accepts what all its members accept, so the matcher of a pattern accepts a command exactly
if its verb, its object, its preposition and its modifiers are accepted one by one.
-/
namespace TextAdventure

namespace Command

variable {c : Command}

theorem find?_eq_none_iff {α : Type} {pos : PartOfSpeech} {f : Part → Option α}
    (hf : ∀ p, p.partOfSpeech = pos ↔ (f p).isSome = true) (c : Command) :
    c.find? pos = none ↔ c.parts.filterMap f = [] := by
  rw [find?, List.getLast?_eq_none_iff, findAll, List.filter_eq_nil_iff, List.filterMap_eq_nil_iff]
  refine forall₂_congr fun p _ => ?_
  rw [decide_eq_true_eq, hf, Bool.not_eq_true, Option.isSome_eq_false_iff, Option.isNone_iff_eq_none]

theorem find?_directObject_eq_none_iff (c : Command) :
    c.find? .directObject = none ↔ c.object? .direct = none := by
  have hp : ∀ p : Part, p.partOfSpeech = .directObject ↔ (p.object? .direct).isSome = true := by
    intro p
    cases p <;> simp [Part.partOfSpeech, Part.object?]
  rw [find?_eq_none_iff hp, object?, List.getLast?_eq_none_iff]

theorem find?_preposition_eq_none_iff (c : Command) :
    c.find? .preposition = none ↔ c.preposition? = none := by
  have hp : ∀ p : Part, p.partOfSpeech = .preposition ↔ p.preposition?.isSome = true := by
    intro p
    cases p <;> simp [Part.partOfSpeech, Part.preposition?]
  rw [find?_eq_none_iff hp, preposition?, List.getLast?_eq_none_iff]

theorem find?_modifier_eq_none_iff (c : Command) :
    c.find? .modifier = none ↔ c.modifiers = [] := by
  have hp : ∀ p : Part, p.partOfSpeech = .modifier ↔ p.modifier?.isSome = true := by
    intro p
    cases p <;> simp [Part.partOfSpeech, Part.modifier?]
  rw [find?_eq_none_iff hp, modifiers]

end Command

namespace Matcher

variable {c : Command} {owner : String}

/-- Whether a matcher accepts a command for an action of an owner. -/
def accepts (m : Matcher) (c : Command) (owner : String) : Bool :=
  (m c owner).isSome

@[simp] theorem accepts_verb (id : String) :
    accepts (verb id) c owner = c.verb?.any fun v => v.id = id := by
  unfold accepts verb named
  split <;> simp_all

@[simp] theorem accepts_object (role : Role) (name : String) :
    accepts (object role name) c owner = (c.object? role).any (means name owner) := by
  unfold accepts object named
  split <;> simp_all

@[simp] theorem accepts_captureObject (role : Role) (name : String) :
    accepts (captureObject role name) c owner = (c.object? role).isSome := by
  simp [accepts, captureObject]

@[simp] theorem accepts_preposition (word : String) :
    accepts (preposition word) c owner = decide (c.preposition? = some word) := by
  unfold accepts preposition named
  split <;> simp_all

@[simp] theorem accepts_modifier (kind value : String) :
    accepts (modifier kind value) c owner = c.modifiers.contains (kind, value) := by
  unfold accepts modifier named
  split <;> simp_all

@[simp] theorem accepts_captureModifier (kind name : String) :
    accepts (captureModifier kind name) c owner = c.modifiers.any fun m => m.1 = kind := by
  rw [accepts, captureModifier, Option.isSome_map, Bool.eq_iff_iff, List.find?_isSome,
    List.any_eq_true]

@[simp] theorem accepts_absent (pos : PartOfSpeech) :
    accepts (absent pos) c owner = (c.find? pos).isNone := by
  unfold accepts absent
  split <;> simp_all

theorem isSome_foldlM_merge (ms : List Matcher) (hit : Hit) :
    (ms.foldlM (fun hit (m : Matcher) => (m c owner).map hit.merge) hit).isSome =
      ms.all fun m => accepts m c owner := by
  induction ms generalizing hit with
  | nil => rfl
  | cons m ms ih =>
    rw [List.foldlM_cons, List.all_cons, accepts]
    cases hm : m c owner with
    | none => rfl
    | some h => exact ih (hit.merge h)

@[simp] theorem accepts_all (ms : List Matcher) :
    accepts (all ms) c owner = ms.all fun m => accepts m c owner :=
  isSome_foldlM_merge ms (.ofScore 0)

theorem accepts_all_parts {id : String} {object : Matcher} {prepositions modifiers : List Matcher} :
    accepts (all ([verb id, object] ++ prepositions ++ modifiers)) c owner = true ↔
      (c.verb?.any fun v => v.id = id) = true ∧ accepts object c owner = true ∧
      (∀ m ∈ prepositions, accepts m c owner = true) ∧ ∀ m ∈ modifiers, accepts m c owner = true := by
  simp

theorem Clauses.matcher_eq_ok_iff {clauses : Clauses} {m : Matcher} :
    clauses.matcher = .ok m ↔ ∃ v prepositions, clauses.verb = some v ∧
      clauses.prepositionMatchers v = .ok prepositions ∧
      m = all ([Matcher.verb v.id, clauses.object.getD (absent .directObject)] ++ prepositions ++
        clauses.modifierMatchers) := by
  rw [Clauses.matcher]
  cases hv : clauses.verb with
  | none => simp
  | some v =>
    simp only [Error.bind_eq_ok_iff, pure, Except.pure, Except.ok.injEq]
    constructor
    · rintro ⟨prepositions, hp, rfl⟩
      exact ⟨v, prepositions, rfl, hp, rfl⟩
    · rintro ⟨_, prepositions, heq, hp, rfl⟩
      cases heq
      exact ⟨prepositions, hp, rfl⟩

end Matcher

namespace Pattern

open Matcher

variable {verbs : VerbTable}

theorem lookupVerb_eq_ok_iff {t : Term} {v : Verb} :
    lookupVerb verbs t = .ok v ↔ ∃ n, t = .name n ∧ Dictionary.get? n verbs = some v := by
  cases t with
  | capture n => simp [lookupVerb]
  | name n =>
    simp only [lookupVerb, Term.name.injEq, exists_eq_left']
    cases Dictionary.get? n verbs <;> simp

theorem modifierMatchers_eq_ok_iff {v : Verb} {kinds : List String} {ts : List Term}
    {ms : List Matcher} : modifierMatchers v kinds ts = .ok ms ↔
      ts.length ≤ kinds.length ∧ ms = List.zipWith (fun kind t => t.modifier kind) kinds ts := by
  induction ts generalizing kinds ms with
  | nil => simp [modifierMatchers, eq_comm]
  | cons t ts ih =>
    cases kinds with
    | nil => simp [modifierMatchers]
    | cons kind kinds =>
      rw [modifierMatchers]
      cases hr : modifierMatchers v kinds ts with
      | error e =>
        have hlen : ¬ ts.length ≤ kinds.length := by
          intro hlen
          rw [ih.mpr ⟨hlen, rfl⟩] at hr
          cases hr
        simp [bind, Except.bind, hlen]
      | ok rest =>
        obtain ⟨hlen, rfl⟩ := ih.mp hr
        simp [bind, Except.bind, pure, Except.pure, hlen, eq_comm]

theorem clauses_eq_ok_iff {p : Pattern} {clauses : Clauses} :
    p.clauses verbs = .ok clauses ↔ ∃ v ms clause, lookupVerb verbs p.verb.head = .ok v ∧
      modifierMatchers v v.modifiers (arguments v p.verb.args).2 = .ok ms ∧
      p.clause.mapM prepositionClause = .ok clause ∧
      clauses = ⟨some v, (arguments v p.verb.args).1.map (Term.object .direct), clause, ms⟩ := by
  simp only [Pattern.clauses, Error.bind_eq_ok_iff, pure, Except.pure, Except.ok.injEq]
  constructor
  · rintro ⟨v, hv, ms, hms, clause, hc, rfl⟩
    exact ⟨v, ms, clause, hv, hms, hc, rfl⟩
  · rintro ⟨v, ms, clause, hv, hms, hc, rfl⟩
    exact ⟨v, hv, ms, hms, clause, hc, rfl⟩

theorem matcher_eq_ok_iff {e : Expr} {m : Matcher} :
    matcher verbs e = .ok m ↔ ∃ p clauses, ofExpr e = .ok p ∧ p.clauses verbs = .ok clauses ∧
      clauses.matcher = .ok m := by
  simp only [matcher, Error.bind_eq_ok_iff]
  constructor
  · rintro ⟨p, hp, clauses, hc, hm⟩
    exact ⟨p, clauses, hp, hc, hm⟩
  · rintro ⟨p, clauses, hp, hc, hm⟩
    exact ⟨p, hp, clauses, hc, hm⟩

end Pattern

end TextAdventure
