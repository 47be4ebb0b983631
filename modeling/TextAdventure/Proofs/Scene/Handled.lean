import TextAdventure.Proofs.Command.Acceptance
import TextAdventure.Proofs.Scene.Shape

/-! # Patterns for enumerated commands

A pattern names its modifiers by position, from the first kind on, and takes its first argument for an
object if its verb takes one. An enumerated command has one modifier at most, of any kind that its verb
declares. So a command without a modifier always has a pattern, and a command with one has a pattern
exactly if the modifier is of the first kind and no object is missing before it.
-/
namespace TextAdventure

open Eval Matcher

/-- Some pattern for the verbs accepts the command for an action of some owner. -/
def Command.HasPattern (verbs : VerbTable) (c : Command) : Prop :=
  ∃ e m owner, Pattern.matcher verbs e = .ok m ∧ accepts m c owner = true

/-- The command has no modifier; or it has one of the first kind of a verb that is spelled like its own
and takes an object exactly if the command has one. -/
def Command.Fits (verbs : VerbTable) (c : Command) : Prop :=
  c.modifiers = [] ∨ ∃ v ∈ Dictionary.values verbs, ∃ kind value,
    (c.verb?.any fun w => w.id = v.id) = true ∧ (kind, value) ∈ c.modifiers ∧
    v.modifiers.head? = some kind ∧ v.isTransitive = (c.object? .direct).isSome

namespace Pattern

variable {verbs : VerbTable} {c : Command} {owner : String}

theorem isSome_object?_of_accepts {role : Role} {t : Term}
    (h : accepts (t.object role) c owner = true) : (c.object? role).isSome = true := by
  cases t with
  | name n =>
    rw [Term.object, accepts_object] at h
    cases ho : c.object? role with
    | none =>
      rw [ho] at h
      cases h
    | some id => rfl
  | capture n => rwa [Term.object, accepts_captureObject] at h

theorem exists_mem_modifiers_of_accepts {kind : String} {t : Term}
    (h : accepts (t.modifier kind) c owner = true) : ∃ value, (kind, value) ∈ c.modifiers := by
  cases t with
  | name n =>
    rw [Term.modifier, accepts_modifier] at h
    exact ⟨n, List.contains_iff_mem.mp h⟩
  | capture n =>
    rw [Term.modifier, accepts_captureModifier] at h
    obtain ⟨⟨k, value⟩, hm, hk⟩ := List.any_eq_true.mp h
    cases of_decide_eq_true hk
    exact ⟨value, hm⟩

/-- What the object clause of a pattern accepts has an object if the pattern has arguments left for
modifiers and the verb takes an object, and has none if the verb takes none. -/
theorem isTransitive_eq_of_accepts {v : Verb} {args : List Term} (hm : (arguments v args).2 ≠ [])
    (h : accepts (((arguments v args).1.map (Term.object .direct)).getD (absent .directObject)) c owner =
      true) : v.isTransitive = (c.object? .direct).isSome := by
  unfold arguments at hm h
  cases ht : v.isTransitive with
  | true =>
    rw [ht] at hm h
    cases args with
    | nil => exact absurd rfl hm
    | cons t ts => exact (isSome_object?_of_accepts h).symm
  | false =>
    rw [ht] at h
    have hnone : c.find? .directObject = none := by
      rw [← Option.isNone_iff_eq_none]
      simpa using h
    rw [(Command.find?_directObject_eq_none_iff c).mp hnone]
    rfl

theorem fits_of_hasPattern (h : c.HasPattern verbs) : c.Fits verbs := by
  obtain ⟨e, m, owner, hm, ha⟩ := h
  obtain ⟨p, clauses, _, hc, hm⟩ := matcher_eq_ok_iff.mp hm
  obtain ⟨v, ms, clause, hv, hms, _, rfl⟩ := clauses_eq_ok_iff.mp hc
  obtain ⟨w, prepositions, hw, _, rfl⟩ := Clauses.matcher_eq_ok_iff.mp hm
  cases hw
  obtain ⟨hverb, hobject, _, hmodifiers⟩ := accepts_all_parts.mp ha
  obtain ⟨hlen, rfl⟩ := modifierMatchers_eq_ok_iff.mp hms
  cases hts : (arguments v p.verb.args).2 with
  | nil =>
    refine Or.inl ((Command.find?_modifier_eq_none_iff c).mp ?_)
    have habsent := hmodifiers (absent .modifier)
      (by simp [Clauses.modifierMatchers, hts])
    rw [← Option.isNone_iff_eq_none]
    simpa using habsent
  | cons t ts =>
    cases hks : v.modifiers with
    | nil =>
      rw [hts, hks] at hlen
      cases hlen
    | cons kind kinds =>
      have hfirst := hmodifiers (t.modifier kind)
        (by simp [Clauses.modifierMatchers, hts, hks])
      obtain ⟨value, hvalue⟩ := exists_mem_modifiers_of_accepts hfirst
      obtain ⟨n, _, hn⟩ := lookupVerb_eq_ok_iff.mp hv
      refine Or.inr ⟨v, Dictionary.mem_values_of_get? hn, kind, value, hverb, hvalue, by rw [hks]; rfl, ?_⟩
      exact isTransitive_eq_of_accepts (by rw [hts]; exact List.cons_ne_nil t ts) hobject

/-- The expression `key($x, …, $x)`; a quoted name may be any text. -/
def applied (key : String) (n : Nat) : Expr :=
  .call (.literal (.string key) .default) (List.replicate n (.identifier "$x" .default)) .default

/-- The arguments of such an expression. -/
def captures (n : Nat) : List Term :=
  List.replicate n (.capture "$x")

theorem mapM_ofExpr_captures (n : Nat) :
    (List.replicate n (Expr.identifier "$x" .default)).mapM Term.ofExpr = .ok (captures n) := by
  have hx : Term.ofExpr (.identifier "$x" .default) = .ok (.capture "$x") := by
    simp [Term.ofExpr, Term.ofName]
  induction n with
  | zero => rfl
  | succ n ih =>
    rw [List.replicate_succ, List.mapM_cons, hx, ih]
    rfl

theorem applicationOfExpr_applied (key : String) (n : Nat) :
    Application.ofExpr (applied key n) = .ok ⟨.name key, captures n⟩ := by
  rw [applied, Application.ofExpr, mapM_ofExpr_captures]
  rfl

theorem ofExpr_applied (key : String) (n : Nat) :
    ofExpr (applied key n) = .ok ⟨⟨.name key, captures n⟩, none⟩ := by
  have h := applicationOfExpr_applied key n
  simp only [applied] at h
  simp [applied, ofExpr, calledMember, isMember, h, bind, Except.bind, pure, Except.pure]

/-- The expression `key($x).word($x)`. -/
def appliedWith (key word : String) : Expr :=
  .call (.member (applied key 1) word .default) [.identifier "$x" .default] .default

theorem ofExpr_appliedWith {word : String} (hw : ¬ word.startsWith "$" = true) (key : String) :
    ofExpr (appliedWith key word) =
      .ok ⟨⟨.name key, captures 1⟩, some ⟨.name word, captures 1⟩⟩ := by
  have hx := mapM_ofExpr_captures 1
  have h := applicationOfExpr_applied key 1
  simp only [List.replicate_one] at hx
  simp [appliedWith, ofExpr, calledMember, isMember, hx, h, Term.ofName, hw, bind, Except.bind, pure,
    Except.pure]

theorem hasPattern_of_parts {e : Expr} {p : Pattern} {v : Verb} {ms prepositions : List Matcher}
    {clause : Option PrepositionClause} (he : ofExpr e = .ok p)
    (hv : lookupVerb verbs p.verb.head = .ok v)
    (hms : modifierMatchers v v.modifiers (arguments v p.verb.args).2 = .ok ms)
    (hc : p.clause.mapM prepositionClause = .ok clause)
    (hp : Clauses.prepositionMatchers v ⟨some v, (arguments v p.verb.args).1.map (Term.object .direct),
      clause, ms⟩ = .ok prepositions)
    (hverb : (c.verb?.any fun w => w.id = v.id) = true)
    (hobject : accepts (((arguments v p.verb.args).1.map (Term.object .direct)).getD
      (absent .directObject)) c owner = true)
    (hprepositions : ∀ m ∈ prepositions, accepts m c owner = true)
    (hmodifiers : ∀ m ∈ if ms.isEmpty then [absent .modifier] else ms, accepts m c owner = true) :
    c.HasPattern verbs := by
  have hclauses := clauses_eq_ok_iff.mpr ⟨v, ms, clause, hv, hms, hc, rfl⟩
  have hm := Clauses.matcher_eq_ok_iff.mpr ⟨v, prepositions, rfl, hp, rfl⟩
  exact ⟨e, _, owner, matcher_eq_ok_iff.mpr ⟨p, _, he, hclauses, hm⟩,
    accepts_all_parts.mpr ⟨hverb, hobject, hprepositions, hmodifiers⟩⟩

theorem hasPattern_of_applied {v : Verb} {key : String} (hk : Dictionary.get? key verbs = some v)
    (n : Nat) {object : Option Term} {ts : List Term} (ha : arguments v (captures n) = (object, ts))
    {ms : List Matcher} (hms : modifierMatchers v v.modifiers ts = .ok ms)
    (hverb : (c.verb?.any fun w => w.id = v.id) = true) (hp : c.find? .preposition = none)
    (hobject : accepts ((object.map (Term.object .direct)).getD (absent .directObject)) c "" = true)
    (hmodifiers : ∀ m ∈ if ms.isEmpty then [absent .modifier] else ms, accepts m c "" = true) :
    c.HasPattern verbs := by
  have hv := lookupVerb_eq_ok_iff.mpr ⟨key, rfl, hk⟩
  have hms' : modifierMatchers v v.modifiers (arguments v (captures n)).2 = .ok ms := by rwa [ha]
  refine hasPattern_of_parts (ofExpr_applied key n) hv hms' rfl rfl hverb ?_ ?_ hmodifiers
  · rwa [ha]
  · intro m hm
    split at hm
    · cases hm
    · cases List.mem_singleton.mp hm
      simp [hp]

theorem accepts_of_absent {pos : PartOfSpeech} (h : c.find? pos = none) (owner : String) :
    ∀ m ∈ ([absent pos] : List Matcher), accepts m c owner = true := by
  intro m hm
  cases List.mem_singleton.mp hm
  simp [h]

theorem modifierMatchers_singleton {v : Verb} {kind : String} (h : v.modifiers.head? = some kind)
    (t : Term) : modifierMatchers v v.modifiers [t] = .ok [t.modifier kind] := by
  obtain ⟨kinds, hks⟩ := List.head?_eq_some_iff.mp h
  rw [hks]
  exact modifierMatchers_eq_ok_iff.mpr ⟨by simp, by simp⟩

variable {v : Verb} {key : String}

theorem hasPattern_alone (hk : Dictionary.get? key verbs = some v) :
    Command.HasPattern verbs ⟨[.verb v]⟩ := by
  have ha : arguments v (captures 0) = (none, []) := by
    unfold arguments
    split <;> rfl
  have hms : modifierMatchers v v.modifiers [] = .ok [] := by simp [modifierMatchers]
  exact hasPattern_of_applied hk 0 ha hms (decide_eq_true (rfl : v.id = v.id)) rfl rfl
    (accepts_of_absent rfl "")

theorem hasPattern_object (hk : Dictionary.get? key verbs = some v) (ht : v.isTransitive = true)
    (id : String) : Command.HasPattern verbs ⟨[.verb v, .directObject id]⟩ := by
  have ha : arguments v (captures 1) = (some (.capture "$x"), []) := by
    rw [arguments, if_pos ht]
    rfl
  have hms : modifierMatchers v v.modifiers [] = .ok [] := by simp [modifierMatchers]
  exact hasPattern_of_applied hk 1 ha hms (decide_eq_true (rfl : v.id = v.id)) rfl rfl
    (accepts_of_absent rfl "")

theorem hasPattern_indirect (hk : Dictionary.get? key verbs = some v) (ht : v.isTransitive = true)
    {word : String} (hw : ¬ word.startsWith "$" = true) (id other : String) :
    Command.HasPattern verbs
      ⟨[.verb v, .directObject id, .preposition word, .indirectObject other]⟩ := by
  have ha : arguments v (captures 1) = (some (.capture "$x"), []) := by
    rw [arguments, if_pos ht]
    rfl
  have hv := lookupVerb_eq_ok_iff.mpr ⟨key, rfl, hk⟩
  have hms : modifierMatchers v v.modifiers (arguments v (captures 1)).2 = .ok [] := by
    rw [ha]
    simp [modifierMatchers]
  refine hasPattern_of_parts (ofExpr_appliedWith hw key) hv hms rfl rfl
    (decide_eq_true (rfl : v.id = v.id)) ?_ ?_ (accepts_of_absent rfl "")
  · rw [ha]
    rfl
  · intro m hm
    cases List.mem_singleton.mp hm
    rw [accepts_all]
    refine List.all_eq_true.mpr fun m hm => ?_
    rcases List.mem_pair.mp hm with rfl | rfl
    · rw [accepts_preposition]
      exact decide_eq_true rfl
    · rfl

theorem hasPattern_modified (hk : Dictionary.get? key verbs = some v)
    (hverb : (c.verb?.any fun w => w.id = v.id) = true) (hp : c.find? .preposition = none)
    {kind value : String} (hm : (kind, value) ∈ c.modifiers) (hfirst : v.modifiers.head? = some kind)
    (ht : v.isTransitive = (c.object? .direct).isSome) : c.HasPattern verbs := by
  have hmodifiers : ∀ m ∈ [Term.modifier kind (.capture "$x")], accepts m c "" = true := by
    intro m hm'
    cases List.mem_singleton.mp hm'
    rw [Term.modifier, accepts_captureModifier]
    exact List.any_eq_true.mpr ⟨(kind, value), hm, by simp⟩
  cases ho : c.object? .direct with
  | none =>
    rw [ho] at ht
    have ha : arguments v (captures 1) = (none, captures 1) := by
      rw [arguments, ht]
      rfl
    refine hasPattern_of_applied hk 1 ha (modifierMatchers_singleton hfirst _) hverb hp ?_ hmodifiers
    simpa using (Command.find?_directObject_eq_none_iff c).mpr ho
  | some id =>
    rw [ho] at ht
    have ha : arguments v (captures 2) = (some (.capture "$x"), captures 1) := by
      rw [arguments, ht]
      rfl
    refine hasPattern_of_applied hk 2 ha (modifierMatchers_singleton hfirst _) hverb hp ?_ hmodifiers
    simp [Term.object, ho]

end Pattern

namespace Scene

open Pattern

variable {scene : Scene} {s t : Store}

theorem Shape.hasPattern {c : Command} (h : Shape scene c) (hv : Dictionary.Sorted scene.verbs)
    (hw : ∀ v ∈ Dictionary.values scene.verbs, ∀ word ∈ v.prepositions, ¬ word.startsWith "$" = true)
    (hf : c.Fits scene.verbs) : c.HasPattern scene.verbs := by
  cases h with
  | alone hm hi =>
    obtain ⟨key, hk⟩ := Dictionary.exists_get?_of_mem_values hv hm
    exact hasPattern_alone hk
  | object hm ht id =>
    obtain ⟨key, hk⟩ := Dictionary.exists_get?_of_mem_values hv hm
    exact hasPattern_object hk ht id
  | indirect hm ht hword id other =>
    obtain ⟨key, hk⟩ := Dictionary.exists_get?_of_mem_values hv hm
    exact hasPattern_indirect hk ht (hw _ hm _ hword) id other
  | modified | objectModified =>
    rcases hf with hf | ⟨v, hm, kind, value, hverb, hmod, hfirst, ht⟩
    · cases hf
    · obtain ⟨key, hk⟩ := Dictionary.exists_get?_of_mem_values hv hm
      exact hasPattern_modified hk hverb rfl hmod hfirst ht

/-- An enumerated command has a pattern exactly if it fits: a modifier has to be of the first kind of
the verb, and the verb may take an object only if the command has one before the modifier. -/
theorem hasPattern_iff_fits (hv : Dictionary.Sorted scene.verbs)
    (hw : ∀ v ∈ Dictionary.values scene.verbs, ∀ word ∈ v.prepositions, ¬ word.startsWith "$" = true)
    {found : List Command} (h : runOn scene.commands s = (.ok found, t)) {c : Command}
    (hc : c ∈ found) : c.HasPattern scene.verbs ↔ c.Fits scene.verbs :=
  ⟨fits_of_hasPattern, (shape_of_mem_commands h hc).hasPattern hv hw⟩

/-- A verb that may take an object but need not, with a direction in either case. -/
def climb : Verb :=
  (Verb.new "climb").withTrait .transitive |>.withTrait .intransitive |>.withPreposition "with"
    |>.withModifier "direction"

/-- A verb with two kinds of modifiers. -/
def creep : Verb :=
  (Verb.new "creep").withTrait .intransitive |>.withModifier "direction" |>.withModifier "manner"

def hillside : Scene :=
  (Scene.new (VerbTable.ofVerbs [climb, creep])).add "location"
    (Entity.new "hill" |>.withModifier "direction" "up" |>.withModifier "manner" "slowly")

def hillsideCommands : List Command :=
  [⟨[.verb climb]⟩, ⟨[.verb climb, .modifier "direction" "up"]⟩, ⟨[.verb creep]⟩,
    ⟨[.verb creep, .modifier "direction" "up"]⟩, ⟨[.verb creep, .modifier "manner" "slowly"]⟩]

theorem commands_hillside (s : Store) : runOn hillside.commands s = (.ok hillsideCommands, s) := by
  rfl

theorem sorted_hillside : Dictionary.Sorted hillside.verbs :=
  Dictionary.sorted_ofList _

theorem prepositions_hillside : ∀ v ∈ Dictionary.values hillside.verbs, ∀ word ∈ v.prepositions,
    ¬ word.startsWith "$" = true := by
  intro v hv word hw
  rcases List.mem_pair.mp hv with rfl | rfl
  · cases List.mem_singleton.mp hw
    simp
  · cases hw

/-- The first kind of modifier of a verb without objects can be captured. -/
theorem hasPattern_creepUp : Dictionary.Sorted hillside.verbs ∧
    (∀ v ∈ Dictionary.values hillside.verbs, ∀ word ∈ v.prepositions, ¬ word.startsWith "$" = true) ∧
    Command.HasPattern hillside.verbs ⟨[.verb creep, .modifier "direction" "up"]⟩ := by
  refine ⟨sorted_hillside, prepositions_hillside, ?_⟩
  have hc : (⟨[.verb creep, .modifier "direction" "up"]⟩ : Command) ∈ hillsideCommands := by
    simp [hillsideCommands]
  refine (hasPattern_iff_fits sorted_hillside prepositions_hillside
    (commands_hillside (Store.new 0 Store.defaultMaxCalls)) hc).mpr (Or.inr ?_)
  exact ⟨creep, List.mem_pair.mpr (Or.inr rfl), "direction", "up",
    decide_eq_true (rfl : creep.id = creep.id), List.mem_singleton_self _, rfl, rfl⟩

/-- A direction after a verb that may take an object, and a modifier of the second kind, are offered,
but no pattern accepts them. -/
theorem not_hasPattern_hillside :
    runOn hillside.commands (Store.new 0 Store.defaultMaxCalls) =
      (.ok hillsideCommands, Store.new 0 Store.defaultMaxCalls) ∧
    ⟨[.verb climb, .modifier "direction" "up"]⟩ ∈ hillsideCommands ∧
    ¬ Command.HasPattern hillside.verbs ⟨[.verb climb, .modifier "direction" "up"]⟩ ∧
    ⟨[.verb creep, .modifier "manner" "slowly"]⟩ ∈ hillsideCommands ∧
    ¬ Command.HasPattern hillside.verbs ⟨[.verb creep, .modifier "manner" "slowly"]⟩ := by
  refine ⟨commands_hillside _, by simp [hillsideCommands], fun h => ?_, by simp [hillsideCommands],
    fun h => ?_⟩
  · rcases fits_of_hasPattern h with h | ⟨v, hv, _, _, hverb, _, _, ht⟩
    · cases h
    · rcases List.mem_pair.mp hv with rfl | rfl
      · cases ht
      · exact absurd hverb (by decide)
  · rcases fits_of_hasPattern h with h | ⟨v, hv, _, _, hverb, hm, hfirst, _⟩
    · cases h
    · cases List.mem_singleton.mp hm
      rcases List.mem_pair.mp hv with rfl | rfl
      · exact absurd hverb (by decide)
      · exact absurd hfirst (by decide)

end Scene

end TextAdventure
