import Mathlib.Data.List.Forall2
import TextAdventure.Proofs.Command.Acceptance

/-! # The meaning of patterns

Which expressions are patterns for the verbs that there are, what each of them says, and which commands
it is for, said without reading or compiling anything. A pattern compiles exactly if it says something,
and its matcher accepts a command exactly if the command meets what the pattern says.
-/
namespace TextAdventure

namespace Pattern

open Matcher

variable {verbs : VerbTable} {c : Command} {owner : String}

/-- How a term is written. A word captures if it has the dollar sign, a quoted text never does. -/
inductive Writes : Expr → Term → Prop
  | word {n : String} {span : Span} (h : ¬ n.startsWith "$" = true) :
      Writes (.identifier n span) (.name n)
  | capture {n : String} {span : Span} (h : n.startsWith "$" = true) :
      Writes (.identifier n span) (.capture n)
  | quoted {n : String} {span : Span} : Writes (.literal (.string n) span) (.name n)

/-- A term that stands alone or is called with terms. -/
inductive Applies : Expr → Term → List Term → Prop
  | alone {e : Expr} {t : Term} (h : Writes e t) : Applies e t []
  | called {e : Expr} {args : List Expr} {t : Term} {ts : List Term} {span : Span}
      (h : Writes e t) (hargs : List.Forall₂ Writes args ts) : Applies (.call e args span) t ts

/-- The preposition of a clause, and the indirect object if the clause names one. -/
abbrev Clause := String × Option Term

/-- The forms of a pattern: `V` or `V(a, …, b)`, and after it `.A`, `.A()`, `.A(i)` or no clause. -/
inductive Form : Expr → String → List Term → Option Clause → Prop
  | plain {e : Expr} {key : String} {ts : List Term} (h : Applies e (.name key) ts) :
      Form e key ts none
  | member {e : Expr} {key word : String} {ts : List Term} {span : Span}
      (h : Applies e (.name key) ts) (hw : ¬ word.startsWith "$" = true) :
      Form (.member e word span) key ts (some (word, none))
  | called {e : Expr} {key word : String} {ts : List Term} {span span' : Span}
      (h : Applies e (.name key) ts) (hw : ¬ word.startsWith "$" = true) :
      Form (.call (.member e word span) [] span') key ts (some (word, none))
  | calledWith {e i : Expr} {key word : String} {ts : List Term} {t : Term} {span span' : Span}
      (h : Applies e (.name key) ts) (hw : ¬ word.startsWith "$" = true) (hi : Writes i t) :
      Form (.call (.member e word span) [i] span') key ts (some (word, some t))

theorem ofExpr_term_eq_ok_iff {e : Expr} {t : Term} : Term.ofExpr e = .ok t ↔ Writes e t := by
  constructor
  · intro h
    cases e with
    | identifier n span =>
      simp only [Term.ofExpr, Term.ofName, Except.ok.injEq] at h
      split at h
      next hn => exact h ▸ .capture hn
      next hn => exact h ▸ .word hn
    | literal value span =>
      cases value with
      | string n =>
        simp only [Term.ofExpr, Except.ok.injEq] at h
        exact h ▸ .quoted
      | _ => simp [Term.ofExpr] at h
    | _ => simp [Term.ofExpr] at h
  · intro h
    cases h with
    | word h => simp [Term.ofExpr, Term.ofName, h]
    | capture h => simp [Term.ofExpr, Term.ofName, h]
    | quoted => rfl

theorem mapM_ofExpr_eq_ok_iff {args : List Expr} {ts : List Term} :
    args.mapM Term.ofExpr = .ok ts ↔ List.Forall₂ Writes args ts := by
  induction args generalizing ts with
  | nil => simp [pure, Except.pure, eq_comm]
  | cons e es ih =>
    simp only [List.mapM_cons, Error.bind_eq_ok_iff, ih, ofExpr_term_eq_ok_iff, pure, Except.pure,
      Except.ok.injEq, List.forall₂_cons_left_iff]
    constructor
    · rintro ⟨t, ht, ts, hts, rfl⟩
      exact ⟨t, ts, ht, hts, rfl⟩
    · rintro ⟨t, ts, ht, hts, rfl⟩
      exact ⟨t, ht, ts, hts, rfl⟩

theorem applicationOfExpr_eq_ok_iff {e : Expr} {a : Application} :
    Application.ofExpr e = .ok a ↔ Applies e a.head a.args := by
  constructor
  · intro h
    unfold Application.ofExpr at h
    split at h
    next callee args span =>
      simp only [Error.bind_eq_ok_iff, mapM_ofExpr_eq_ok_iff, ofExpr_term_eq_ok_iff, pure,
        Except.pure, Except.ok.injEq] at h
      obtain ⟨t, ht, ts, hts, rfl⟩ := h
      exact .called ht hts
    next =>
      simp only [Error.bind_eq_ok_iff, ofExpr_term_eq_ok_iff, pure, Except.pure, Except.ok.injEq] at h
      obtain ⟨t, ht, rfl⟩ := h
      exact .alone ht
  · obtain ⟨head, args⟩ := a
    intro h
    cases h with
    | alone h =>
      have ht := ofExpr_term_eq_ok_iff.mpr h
      cases h <;> simp [Application.ofExpr, ht, bind, Except.bind, pure, Except.pure]
    | called h hargs =>
      have ht := ofExpr_term_eq_ok_iff.mpr h
      have hts := mapM_ofExpr_eq_ok_iff.mpr hargs
      simp [Application.ofExpr, ht, hts, bind, Except.bind, pure, Except.pure]

/-- How the pattern of an expression is read: its verb, and the clause after it. -/
inductive ReadsAs : Expr → Pattern → Prop
  | plain {e : Expr} {a : Application} (h : Applies e a.head a.args) : ReadsAs e ⟨a, none⟩
  | member {e : Expr} {a : Application} {word : String} {span : Span}
      (h : Applies e a.head a.args) : ReadsAs (.member e word span) ⟨a, some ⟨.ofName word, []⟩⟩
  | called {e : Expr} {a : Application} {word : String} {args : List Expr} {ts : List Term}
      {span span' : Span} (h : Applies e a.head a.args) (hargs : List.Forall₂ Writes args ts) :
      ReadsAs (.call (.member e word span) args span') ⟨a, some ⟨.ofName word, ts⟩⟩

theorem calledMember_cases (e : Expr) :
    calledMember e = (e, []) ∨
      ∃ callee args span, e = .call callee args span ∧ isMember callee = true ∧
        calledMember e = (callee, args) := by
  cases e with
  | call callee args span =>
    cases hm : isMember callee with
    | true => exact .inr ⟨callee, args, span, rfl, hm, by simp [calledMember, hm]⟩
    | false => exact .inl (by simp [calledMember, hm])
  | _ => exact .inl rfl

theorem Applies.calledMember_eq {e : Expr} {t : Term} {ts : List Term} (h : Applies e t ts) :
    calledMember e = (e, []) ∧ isMember e = false := by
  cases h with
  | alone h => cases h <;> exact ⟨rfl, rfl⟩
  | called h => cases h <;> exact ⟨rfl, rfl⟩

theorem ofExpr_eq_ok_iff {e : Expr} {p : Pattern} : ofExpr e = .ok p ↔ ReadsAs e p := by
  constructor
  · intro h
    simp only [ofExpr, Error.bind_eq_ok_iff, mapM_ofExpr_eq_ok_iff] at h
    obtain ⟨ts, hts, h⟩ := h
    split at h
    next container word span heq =>
      simp only [Error.bind_eq_ok_iff, applicationOfExpr_eq_ok_iff, pure, Except.pure,
        Except.ok.injEq] at h
      obtain ⟨a, ha, rfl⟩ := h
      rcases calledMember_cases e with hc | ⟨callee, args, span', rfl, _, hc⟩
      · rw [hc] at heq hts
        cases heq
        cases hts
        exact .member ha
      · rw [hc] at heq hts
        cases heq
        exact .called ha hts
    next => cases h
    next hmember helement =>
      simp only [Error.bind_eq_ok_iff, applicationOfExpr_eq_ok_iff, pure, Except.pure,
        Except.ok.injEq] at h
      obtain ⟨a, ha, rfl⟩ := h
      rcases calledMember_cases e with hc | ⟨callee, args, span, rfl, hm, hc⟩
      · rw [hc] at ha
        exact .plain ha
      · rw [hc] at ha
        rw [ha.calledMember_eq.2] at hm
        cases hm
  · intro h
    cases h with
    | @plain e a h =>
      have ha := applicationOfExpr_eq_ok_iff.mpr h
      obtain ⟨hc, hm⟩ := h.calledMember_eq
      simp only [ofExpr, hc]
      cases e with
      | member | element => cases hm
      | _ => simp [ha, bind, Except.bind, pure, Except.pure]
    | member h =>
      have ha := applicationOfExpr_eq_ok_iff.mpr h
      simp [ofExpr, calledMember, ha, bind, Except.bind, pure, Except.pure]
    | called h hargs =>
      have ha := applicationOfExpr_eq_ok_iff.mpr h
      have hts := mapM_ofExpr_eq_ok_iff.mpr hargs
      simp [ofExpr, calledMember, isMember, ha, hts, bind, Except.bind, pure, Except.pure]

def Clause.application (clause : Clause) : Application :=
  ⟨.name clause.1, clause.2.toList⟩

/-- What is asked of the preposition and the indirect object. -/
def Clause.asked (clause : Clause) : PrepositionClause :=
  ⟨some clause.1, clause.2.map (Term.object .indirect)⟩

theorem ofName_eq_name_iff {n m : String} :
    Term.ofName n = .name m ↔ ¬ n.startsWith "$" = true ∧ n = m := by
  unfold Term.ofName
  split <;> simp_all

theorem prepositionClause_eq_ok_iff {a : Application} {asked : PrepositionClause} :
    prepositionClause a = .ok asked ↔
      ∃ clause : Clause, a = clause.application ∧ asked = clause.asked := by
  constructor
  · intro h
    obtain ⟨head, args⟩ := a
    cases head with
    | capture n => cases h
    | name n =>
      match args, h with
      | [], h =>
        cases h
        exact ⟨(n, none), rfl, rfl⟩
      | [t], h =>
        cases h
        exact ⟨(n, some t), rfl, rfl⟩
  · rintro ⟨⟨n, i⟩, rfl, rfl⟩
    cases i <;> rfl

theorem form_of_readsAs {e : Expr} {p : Pattern} {key : String} {clause : Option Clause}
    (h : ReadsAs e p) (hkey : p.verb.head = .name key) (hc : p.clause = clause.map Clause.application) :
    Form e key p.verb.args clause := by
  cases h with
  | plain h =>
    obtain rfl := Option.map_eq_none_iff.mp hc.symm
    exact .plain (hkey ▸ h)
  | member h =>
    obtain ⟨⟨word, i⟩, rfl, happ⟩ := Option.map_eq_some_iff.mp hc.symm
    obtain ⟨hword, hargs⟩ := Application.mk.inj happ
    obtain ⟨hw, rfl⟩ := ofName_eq_name_iff.mp hword.symm
    obtain rfl := Option.toList_eq_nil_iff.mp hargs
    exact .member (hkey ▸ h) hw
  | called h hargs =>
    obtain ⟨⟨word, i⟩, rfl, happ⟩ := Option.map_eq_some_iff.mp hc.symm
    obtain ⟨hword, rfl⟩ := Application.mk.inj happ
    obtain ⟨hw, rfl⟩ := ofName_eq_name_iff.mp hword.symm
    cases i with
    | none =>
      cases hargs
      exact .called (hkey ▸ h) hw
    | some t =>
      obtain ⟨i, rest, hi, hrest, rfl⟩ := List.forall₂_cons_right_iff.mp hargs
      cases hrest
      exact .calledWith (hkey ▸ h) hw hi

theorem form_iff {e : Expr} {key : String} {ts : List Term} {clause : Option Clause} :
    Form e key ts clause ↔ ReadsAs e ⟨⟨.name key, ts⟩, clause.map Clause.application⟩ := by
  refine ⟨fun h => ?_, fun h => form_of_readsAs h rfl rfl⟩
  have hname : ∀ {word : String}, ¬ word.startsWith "$" = true → Term.name word = .ofName word :=
    fun hw => (ofName_eq_name_iff.mpr ⟨hw, rfl⟩).symm
  cases h with
  | plain h => exact .plain h
  | member h hw =>
    simp only [Option.map_some, Clause.application, Option.toList_none, hname hw]
    exact .member h
  | called h hw =>
    simp only [Option.map_some, Clause.application, Option.toList_none, hname hw]
    exact .called h .nil
  | calledWith h hw hi =>
    simp only [Option.map_some, Clause.application, Option.toList_some, hname hw]
    exact .called h (.cons hi .nil)

/-- The first argument is for the object if the verb takes one; the rest are for modifiers. -/
inductive Takes (v : Verb) : List Term → Option Term → List Term → Prop
  | object (ht : v.isTransitive = true) (t : Term) (ts : List Term) : Takes v (t :: ts) (some t) ts
  | nothing (ht : v.isTransitive = true) : Takes v [] none []
  | modifiers (ht : ¬ v.isTransitive = true) (ts : List Term) : Takes v ts none ts

theorem takes_iff {v : Verb} {args : List Term} {object : Option Term} {modifiers : List Term} :
    Takes v args object modifiers ↔ arguments v args = (object, modifiers) := by
  unfold arguments
  constructor
  · intro h
    cases h <;> simp_all
  · intro h
    split at h
    next ht =>
      cases args with
      | nil =>
        cases h
        exact .nothing ht
      | cons t ts =>
        cases h
        exact .object ht t ts
    next ht =>
      cases h
      exact .modifiers ht _

/-- What a pattern says of a command: its verb, its object, its modifiers by kind and its clause. -/
structure Reading where
  verb : Verb
  object : Option Term
  modifiers : List Term
  clause : Option Clause

/-- The expression is a pattern with the verb that the table has for the name; no more terms are left
for modifiers than the verb has kinds. -/
structure Says (verbs : VerbTable) (e : Expr) (key : String) (r : Reading) : Prop where
  form : ∃ args, Form e key args r.clause ∧ Takes r.verb args r.object r.modifiers
  verb : Dictionary.get? key verbs = some r.verb
  kinds : r.modifiers.length ≤ r.verb.modifiers.length

namespace Reading

def asked (r : Reading) : Clauses :=
  ⟨some r.verb, r.object.map (Term.object .direct), r.clause.map Clause.asked,
    List.zipWith (fun kind t => t.modifier kind) r.verb.modifiers r.modifiers⟩

def prepositions (r : Reading) : List Matcher :=
  match r.clause with
  | some (word, i) => [all (Matcher.preposition word :: (i.map (Term.object .indirect)).toList)]
  | none => if r.verb.isIndirectOptional then [] else [absent .preposition]

def matcher (r : Reading) : Matcher :=
  all ([Matcher.verb r.verb.id, (r.object.map (Term.object .direct)).getD (absent .directObject)] ++
    r.prepositions ++ r.asked.modifierMatchers)

theorem matcher_asked (r : Reading) : r.asked.matcher = .ok r.matcher := by
  have hp : r.asked.prepositionMatchers r.verb = .ok r.prepositions := by
    unfold Clauses.prepositionMatchers prepositions asked
    cases r.clause <;> rfl
  exact Clauses.matcher_eq_ok_iff.mpr ⟨r.verb, r.prepositions, rfl, hp, rfl⟩

end Reading

theorem mapM_prepositionClause_eq_ok_iff {a : Option Application} {asked : Option PrepositionClause} :
    a.mapM prepositionClause = .ok asked ↔
      ∃ clause : Option Clause, a = clause.map Clause.application ∧ asked = clause.map Clause.asked := by
  cases a with
  | none => simp [pure, Except.pure, eq_comm]
  | some a =>
    have hmap : (some a).mapM prepositionClause = .ok asked ↔
        ∃ k, prepositionClause a = .ok k ∧ asked = some k := by
      simp only [Option.mapM_some, Functor.map, Except.map]
      cases prepositionClause a <;> simp [eq_comm]
    rw [hmap]
    constructor
    · rintro ⟨k, hk, rfl⟩
      obtain ⟨clause, rfl, rfl⟩ := prepositionClause_eq_ok_iff.mp hk
      exact ⟨some clause, rfl, rfl⟩
    · rintro ⟨clause, ha, rfl⟩
      obtain ⟨k, rfl, rfl⟩ := Option.map_eq_some_iff.mp ha.symm
      exact ⟨k.asked, prepositionClause_eq_ok_iff.mpr ⟨k, rfl, rfl⟩, rfl⟩

/-- A pattern compiles exactly if it says something, to the tests of what it says. -/
theorem matcher_eq_ok_iff_says {e : Expr} {m : Matcher} :
    matcher verbs e = .ok m ↔ ∃ key r, Says verbs e key r ∧ m = r.matcher := by
  rw [matcher_eq_ok_iff]
  constructor
  · rintro ⟨p, clauses, hp, hc, hm⟩
    obtain ⟨v, ms, asked, hv, hms, ha, rfl⟩ := clauses_eq_ok_iff.mp hc
    obtain ⟨key, hkey, hget⟩ := lookupVerb_eq_ok_iff.mp hv
    obtain ⟨hlen, rfl⟩ := modifierMatchers_eq_ok_iff.mp hms
    obtain ⟨clause, hclause, rfl⟩ := mapM_prepositionClause_eq_ok_iff.mp ha
    have hform := form_of_readsAs (ofExpr_eq_ok_iff.mp hp) hkey hclause
    let r : Reading := ⟨v, (arguments v p.verb.args).1, (arguments v p.verb.args).2, clause⟩
    refine ⟨key, r, ⟨⟨p.verb.args, hform, takes_iff.mpr rfl⟩, hget, hlen⟩, ?_⟩
    exact Except.ok.inj (hm.symm.trans r.matcher_asked)
  · rintro ⟨key, r, ⟨⟨args, hform, htakes⟩, hget, hlen⟩, rfl⟩
    have ha := takes_iff.mp htakes
    refine ⟨_, r.asked, ofExpr_eq_ok_iff.mpr (form_iff.mp hform), ?_, r.matcher_asked⟩
    refine clauses_eq_ok_iff.mpr ⟨r.verb, _, r.clause.map Clause.asked,
      lookupVerb_eq_ok_iff.mpr ⟨key, rfl, hget⟩, modifierMatchers_eq_ok_iff.mpr ⟨?_, rfl⟩,
      mapM_prepositionClause_eq_ok_iff.mpr ⟨r.clause, rfl, rfl⟩, ?_⟩
    · simpa only [ha] using hlen
    · simp only [ha, Reading.asked]

/-- A name means the object of the name, and `this` the owner; a capture means any object. -/
def Term.MeansObject (owner : String) : Term → String → Prop
  | .name n, id => id = if n = "this" then owner else n
  | .capture _, _ => True

/-- A name means itself, a capture any value. -/
def Term.MeansValue : Term → String → Prop
  | .name n, value => value = n
  | .capture _, _ => True

/-- The command has an object in the role, and the term means it. -/
def HasObject (role : Role) (t : Term) (c : Command) (owner : String) : Prop :=
  ∃ id, c.object? role = some id ∧ t.MeansObject owner id

/-- The command has a modifier of the kind, and the term means its value. -/
def HasModifier (kind : String) (t : Term) (c : Command) : Prop :=
  ∃ value, (kind, value) ∈ c.modifiers ∧ t.MeansValue value

/-- The command is what the pattern says, for an action of the owner. -/
structure Reading.Meets (r : Reading) (c : Command) (owner : String) : Prop where
  verb : ∃ v, c.verb? = some v ∧ v.id = r.verb.id
  object : ∀ t ∈ r.object, HasObject .direct t c owner
  noObject : r.object = none → c.object? .direct = none
  clause : ∀ word i, r.clause = some (word, i) →
    c.preposition? = some word ∧ ∀ t ∈ i, HasObject .indirect t c owner
  noClause : r.clause = none → r.verb.isIndirectOptional = true ∨ c.preposition? = none
  modifiers : ∀ (k : Nat) (kind : String) (t : Term), r.verb.modifiers[k]? = some kind → r.modifiers[k]? = some t →
    HasModifier kind t c
  noModifiers : r.modifiers = [] → c.modifiers = []

theorem accepts_object_iff (role : Role) (t : Term) :
    accepts (t.object role) c owner = true ↔ HasObject role t c owner := by
  cases t with
  | name n =>
    simp only [Term.object, accepts_object, Option.any_eq_true, HasObject, Term.MeansObject, means]
    refine exists_congr fun id => and_congr_right fun _ => ?_
    split <;> simp
  | capture n =>
    simp [Term.object, HasObject, Term.MeansObject, Option.isSome_iff_exists]

theorem accepts_modifier_iff (kind : String) (t : Term) :
    accepts (t.modifier kind) c owner = true ↔ HasModifier kind t c := by
  cases t with
  | name n => simp [Term.modifier, HasModifier, Term.MeansValue]
  | capture n =>
    simp [Term.modifier, HasModifier, Term.MeansValue]

namespace Reading

variable {r : Reading}

theorem accepts_object_iff :
    accepts ((r.object.map (Term.object .direct)).getD (absent .directObject)) c owner = true ↔
      (∀ t ∈ r.object, HasObject .direct t c owner) ∧
        (r.object = none → c.object? .direct = none) := by
  cases r.object with
  | none => simpa using Command.find?_directObject_eq_none_iff c
  | some t => simpa using Pattern.accepts_object_iff .direct t

theorem accepts_prepositions_iff :
    (∀ m ∈ r.prepositions, accepts m c owner = true) ↔
      (∀ word i, r.clause = some (word, i) →
        c.preposition? = some word ∧ ∀ t ∈ i, HasObject .indirect t c owner) ∧
      (r.clause = none → r.verb.isIndirectOptional = true ∨ c.preposition? = none) := by
  unfold prepositions
  cases r.clause with
  | none =>
    cases r.verb.isIndirectOptional with
    | true => simp
    | false => simpa using Command.find?_preposition_eq_none_iff c
  | some clause =>
    obtain ⟨word, i⟩ := clause
    cases i with
    | none => simp
    | some t => simp [Pattern.accepts_object_iff]

theorem accepts_modifiers_iff (hk : r.modifiers.length ≤ r.verb.modifiers.length) :
    (∀ m ∈ r.asked.modifierMatchers, accepts m c owner = true) ↔
      (∀ (k : Nat) (kind : String) (t : Term), r.verb.modifiers[k]? = some kind →
        r.modifiers[k]? = some t → HasModifier kind t c) ∧
      (r.modifiers = [] → c.modifiers = []) := by
  have habsent := Command.find?_modifier_eq_none_iff c
  cases hm : r.modifiers with
  | nil => simpa [Clauses.modifierMatchers, asked, hm] using habsent
  | cons t ts =>
    -- a term that is left has a kind, so the tests are those of the terms
    have hne : r.asked.modifiers ≠ [] := by
      intro hnil
      have hlen := congrArg List.length hnil
      simp only [asked, List.length_zipWith, List.length_nil] at hlen
      rw [hm, List.length_cons] at hk hlen
      omega
    have hmatchers : r.asked.modifierMatchers = r.asked.modifiers := by
      rw [Clauses.modifierMatchers, if_neg (by simpa using hne)]
    rw [hmatchers, ← hm]
    constructor
    · intro h
      refine ⟨fun k kind t hkind ht => ?_, fun hnil => absurd (hm.symm.trans hnil) (List.cons_ne_nil _ _)⟩
      have hget : r.asked.modifiers[k]? = some (t.modifier kind) := by
        simp [asked, List.getElem?_zipWith, hkind, ht]
      exact (accepts_modifier_iff kind t).mp (h _ (List.mem_of_getElem? hget))
    · rintro ⟨h, -⟩ m hmem
      obtain ⟨k, hget⟩ := List.mem_iff_getElem?.mp hmem
      simp only [asked, List.getElem?_zipWith] at hget
      split at hget
      next kind t hkind ht =>
        cases hget
        exact (accepts_modifier_iff kind t).mpr (h k kind t hkind ht)
      next => cases hget

theorem accepts_matcher_iff (hk : r.modifiers.length ≤ r.verb.modifiers.length) :
    accepts r.matcher c owner = true ↔ r.Meets c owner := by
  have hverb : (c.verb?.any fun v => v.id = r.verb.id) = true ↔
      ∃ v, c.verb? = some v ∧ v.id = r.verb.id := by
    simp [Option.any_eq_true]
  rw [matcher, accepts_all_parts, hverb, accepts_object_iff, accepts_prepositions_iff,
    accepts_modifiers_iff hk]
  constructor
  · rintro ⟨hv, ⟨ho, hno⟩, ⟨hc, hnc⟩, hm, hnm⟩
    exact ⟨hv, ho, hno, hc, hnc, hm, hnm⟩
  · rintro ⟨hv, ho, hno, hc, hnc, hm, hnm⟩
    exact ⟨hv, ⟨ho, hno⟩, ⟨hc, hnc⟩, hm, hnm⟩

end Reading

/-- An expression compiles to a matcher exactly if it is a pattern that says something for the verbs of
the table, and the matcher accepts a command for an action of an owner exactly if the command meets what
the pattern says. In a table by ids the verb that is asked for is the one that the pattern names. -/
theorem matcher_meaning (verbs : VerbTable) (e : Expr) :
    ((∃ m, matcher verbs e = .ok m) ↔ ∃ key r, Says verbs e key r) ∧
      ∀ m key r, matcher verbs e = .ok m → Says verbs e key r →
        (verbs.ById → r.verb.id = key) ∧
          ∀ c owner, accepts m c owner = true ↔ r.Meets c owner := by
  refine ⟨⟨?_, ?_⟩, ?_⟩
  · rintro ⟨m, hm⟩
    obtain ⟨key, r, hsays, _⟩ := matcher_eq_ok_iff_says.mp hm
    exact ⟨key, r, hsays⟩
  · rintro ⟨key, r, hsays⟩
    exact ⟨r.matcher, matcher_eq_ok_iff_says.mpr ⟨key, r, hsays, rfl⟩⟩
  · intro m key r hm hsays
    have hr := matcher_eq_ok_iff_says.mpr ⟨key, r, hsays, rfl⟩
    have heq : m = r.matcher := Except.ok.inj (hm.symm.trans hr)
    refine ⟨fun hid => hid.id_eq_of_get? hsays.verb, fun c owner => ?_⟩
    rw [heq]
    exact Reading.accepts_matcher_iff hsays.kinds

def stir : Verb :=
  (Verb.new "stir").withTrait .transitive |>.withPreposition "with"

/-- The pattern `stir($pot).with(this)`. -/
def stirWithThis : Expr :=
  .call (.member (.call (.identifier "stir" .default) [.identifier "$pot" .default] .default) "with"
    .default) [.identifier "this" .default] .default

/-- It asks for some direct object, and for the owner after the preposition. -/
def stirReading : Reading :=
  ⟨stir, some (.capture "$pot"), [], some ("with", some (.name "this"))⟩

theorem says_stirWithThis : Says (VerbTable.ofVerbs [stir]) stirWithThis "stir" stirReading where
  form := by
    have happlies : Applies (.call (.identifier "stir" .default) [.identifier "$pot" .default] .default)
        (.name "stir") [.capture "$pot"] :=
      .called (.word (by simp)) (.cons (.capture (by simp)) .nil)
    exact ⟨_, .calledWith happlies (by simp) (.word (by simp)), .object rfl _ _⟩
  verb := rfl
  kinds := Nat.zero_le _

theorem matcher_meaning_stir : ∃ m, matcher (VerbTable.ofVerbs [stir]) stirWithThis = .ok m ∧
    ∀ c owner, accepts m c owner = true ↔ stirReading.Meets c owner := by
  obtain ⟨m, hm⟩ := (matcher_meaning _ _).1.mpr ⟨"stir", stirReading, says_stirWithThis⟩
  obtain ⟨_, haccepts⟩ := (matcher_meaning _ _).2 m "stir" stirReading hm says_stirWithThis
  exact ⟨m, hm, haccepts⟩

end Pattern

end TextAdventure
