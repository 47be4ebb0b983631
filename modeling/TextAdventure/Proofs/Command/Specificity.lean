import TextAdventure.Proofs.Command.Meaning
import TextAdventure.Proofs.Dispatch.Choice

/-! # Specific and general patterns

A pattern scores the same for every command that it is for. A pattern that captures what another one
names, or asks for less after its verb, is for all the commands that the other one is for and scores less.
The main statement is `specific_outranks_general`.
-/
namespace TextAdventure

namespace Matcher

variable {m : Matcher} {ms ns : List Matcher} {k n : Nat}

/-- All hits of the matcher have the score. -/
def Scores (m : Matcher) (n : Nat) : Prop :=
  ∀ c owner hit, m c owner = some hit → hit.score = n

/-- The matchers add the score to every hit. -/
def AddUpTo (ms : List Matcher) (n : Nat) : Prop :=
  ∀ c owner hit whole, extend c owner ms hit = some whole → whole.score = hit.score + n

theorem scores_named (found : Command → String → Bool) :
    Scores (fun c owner => named (found c owner)) nameScore := by
  intro c owner hit h
  dsimp only [named] at h
  split at h
  · cases h
    rfl
  · cases h

theorem scores_captureObject (role : Role) (name : String) :
    Scores (captureObject role name) captureScore := by
  intro c owner hit h
  obtain ⟨id, -, rfl⟩ := Option.map_eq_some_iff.mp h
  rfl

theorem scores_captureModifier (kind name : String) :
    Scores (captureModifier kind name) captureScore := by
  intro c owner hit h
  obtain ⟨m, -, rfl⟩ := Option.map_eq_some_iff.mp h
  rfl

theorem scores_absent (pos : PartOfSpeech) : Scores (absent pos) 0 := by
  intro c owner hit h
  unfold absent at h
  split at h
  · cases h
  · cases h
    rfl

theorem addUpTo_nil : AddUpTo [] 0 := by
  intro c owner hit whole h
  cases h
  rfl

theorem AddUpTo.append (hms : AddUpTo ms k) (hns : AddUpTo ns n) : AddUpTo (ms ++ ns) (k + n) := by
  intro c owner hit whole h
  rw [extend_append] at h
  obtain ⟨mid, hmid, h⟩ := Option.bind_eq_some_iff.mp h
  rw [hns _ _ _ _ h, hms _ _ _ _ hmid, Nat.add_assoc]

theorem Scores.addUpTo (h : Scores m n) : AddUpTo [m] n := by
  intro c owner hit whole hwhole
  obtain ⟨first, hfirst, hwhole⟩ := extend_cons_eq_some_iff.mp hwhole
  cases hwhole
  rw [Hit.merge, h _ _ _ hfirst]

theorem AddUpTo.scores_all (h : AddUpTo ms n) : Scores (all ms) n := by
  intro c owner whole hwhole
  rw [h c owner _ whole hwhole, Hit.ofScore, Nat.zero_add]

end Matcher

namespace Pattern

open Matcher

variable {verbs : VerbTable} {c : Command} {owner key word : String} {e f : Expr} {k l : Nat}
  {args args' ts us : List Term} {clause clause' : Option Clause} {m q : Matcher} {v : Verb}

def Term.score : Term → Nat
  | .name _ => nameScore
  | .capture _ => captureScore

theorem Term.scores_object (role : Role) (t : Term) : Scores (t.object role) t.score := by
  cases t with
  | name n => exact scores_named _
  | capture n => exact scores_captureObject role n

theorem Term.scores_modifier (kind : String) (t : Term) : Scores (t.modifier kind) t.score := by
  cases t with
  | name n => exact scores_named _
  | capture n => exact scores_captureModifier kind n

/-- The sum of the scores of some terms. -/
def worth (ts : List Term) : Nat :=
  (ts.map Term.score).sum

theorem worth_cons (t : Term) (ts : List Term) : worth (t :: ts) = t.score + worth ts :=
  rfl

theorem addUpTo_zipWith {kinds : List String} (h : ts.length ≤ kinds.length) :
    AddUpTo (List.zipWith (fun kind t => t.modifier kind) kinds ts) (worth ts) := by
  induction ts generalizing kinds with
  | nil =>
    rw [List.zipWith_nil_right]
    exact addUpTo_nil
  | cons t ts ih =>
    cases kinds with
    | nil => cases h
    | cons kind kinds =>
      rw [List.zipWith_cons_cons, worth_cons]
      exact (t.scores_modifier kind).addUpTo.append (ih (Nat.le_of_succ_le_succ h))

namespace Reading

variable {r q : Reading}

def clauseScore : Option Clause → Nat
  | none => 0
  | some clause => nameScore + worth clause.2.toList

/-- What every hit of the pattern scores. -/
def score (r : Reading) : Nat :=
  nameScore + worth r.object.toList + clauseScore r.clause + worth r.modifiers

theorem scores_object (r : Reading) :
    Scores ((r.object.map (Term.object .direct)).getD (absent .directObject))
      (worth r.object.toList) := by
  cases r.object with
  | none => exact scores_absent _
  | some t => exact t.scores_object .direct

theorem addUpTo_prepositions (r : Reading) : AddUpTo r.prepositions (clauseScore r.clause) := by
  unfold prepositions
  cases r.clause with
  | none =>
    dsimp only
    split
    · exact addUpTo_nil
    · exact (scores_absent _).addUpTo
  | some clause =>
    obtain ⟨word, i⟩ := clause
    have hword : AddUpTo [Matcher.preposition word] nameScore := (scores_named _).addUpTo
    cases i with
    | none => exact (hword.append addUpTo_nil).scores_all.addUpTo
    | some t => exact (hword.append (t.scores_object .indirect).addUpTo).scores_all.addUpTo

theorem addUpTo_modifierMatchers (hk : r.modifiers.length ≤ r.verb.modifiers.length) :
    AddUpTo r.asked.modifierMatchers (worth r.modifiers) := by
  have hasked : AddUpTo r.asked.modifiers (worth r.modifiers) := addUpTo_zipWith hk
  unfold Clauses.modifierMatchers
  split
  next hempty =>
    have hnil : r.modifiers = [] := by
      have hlength := congrArg List.length (List.isEmpty_iff.mp hempty)
      rw [asked, List.length_zipWith, List.length_nil] at hlength
      exact List.eq_nil_of_length_eq_zero (by omega)
    rw [hnil]
    exact (scores_absent _).addUpTo
  next => exact hasked

theorem scores_matcher (hk : r.modifiers.length ≤ r.verb.modifiers.length) :
    Scores r.matcher r.score := by
  have hverb : AddUpTo [Matcher.verb r.verb.id] nameScore := (scores_named _).addUpTo
  have hobject := hverb.append r.scores_object.addUpTo
  exact ((hobject.append r.addUpTo_prepositions).append (addUpTo_modifierMatchers hk)).scores_all

/-- A pattern that says no more than another one is for the same commands, with scores of its own. -/
theorem exists_hit {hit : Hit} (hr : r.modifiers.length ≤ r.verb.modifiers.length)
    (hq : q.modifiers.length ≤ q.verb.modifiers.length) (hmeets : r.Meets c owner → q.Meets c owner)
    (h : r.matcher c owner = some hit) :
    ∃ other, q.matcher c owner = some other ∧ hit.score = r.score ∧ other.score = q.score := by
  have hrAccepts : accepts r.matcher c owner = true := by
    rw [accepts, h]
    rfl
  have hqAccepts := (accepts_matcher_iff hq).mpr (hmeets ((accepts_matcher_iff hr).mp hrAccepts))
  obtain ⟨other, hother⟩ := Option.isSome_iff_exists.mp hqAccepts
  exact ⟨other, hother, scores_matcher hr _ _ _ h, scores_matcher hq _ _ _ hother⟩

end Reading

/-- Of the terms, `k` names become captures. -/
inductive Opens : Nat → List Term → List Term → Prop
  | nil : Opens 0 [] []
  | keep {k : Nat} {ts us : List Term} (t : Term) (h : Opens k ts us) : Opens k (t :: ts) (t :: us)
  | capture {k : Nat} {ts us : List Term} (n m : String) (h : Opens k ts us) :
      Opens (k + 1) (.name n :: ts) (.capture m :: us)

/-- Of the terms of a clause, `k` names become captures. -/
inductive OpensClause : Nat → Option Clause → Option Clause → Prop
  | noClause : OpensClause 0 none none
  | clause {k : Nat} {i j : Option Term} (word : String) (h : Opens k i.toList j.toList) :
      OpensClause k (some (word, i)) (some (word, j))

/-- The term stands for all that another one stands for. -/
structure Term.Covers (t u : Term) : Prop where
  object : ∀ {owner id : String}, t.MeansObject owner id → u.MeansObject owner id
  value : ∀ {value : String}, t.MeansValue value → u.MeansValue value

theorem Term.Covers.refl (t : Term) : t.Covers t :=
  ⟨id, id⟩

theorem Opens.covers (h : Opens k ts us) : List.Forall₂ Term.Covers ts us := by
  induction h with
  | nil => exact .nil
  | keep t _ ih => exact .cons (.refl t) ih
  | capture n m _ ih => exact .cons ⟨fun _ => trivial, fun _ => trivial⟩ ih

theorem Opens.worth (h : Opens k ts us) : worth us + 5 * k = worth ts := by
  induction h with
  | nil => rfl
  | keep t _ ih =>
    rw [worth_cons, worth_cons]
    omega
  | capture n m _ ih =>
    rw [worth_cons, worth_cons, Term.score, Term.score, nameScore, captureScore]
    omega

theorem OpensClause.clauseScore (h : OpensClause k clause clause') :
    Reading.clauseScore clause' + 5 * k = Reading.clauseScore clause := by
  cases h with
  | noClause => rfl
  | clause word h =>
    have hworth := h.worth
    simp only [Reading.clauseScore]
    omega

theorem Opens.split (h : Opens k args args') (v : Verb) : ∃ i j, k = i + j ∧
    Opens i (arguments v args).1.toList (arguments v args').1.toList ∧
    Opens j (arguments v args).2 (arguments v args').2 := by
  unfold Pattern.arguments
  split
  · cases h with
    | nil => exact ⟨0, 0, rfl, .nil, .nil⟩
    | keep t h => exact ⟨0, k, (Nat.zero_add k).symm, .keep t .nil, h⟩
    | capture n m h => exact ⟨1, _, Nat.add_comm _ 1, .capture n m .nil, h⟩
  · exact ⟨0, k, (Nat.zero_add k).symm, .nil, h⟩

theorem HasObject.of_covers {role : Role} {t u : Term} (h : HasObject role t c owner)
    (hcovers : t.Covers u) : HasObject role u c owner := by
  obtain ⟨id, hid, hmeans⟩ := h
  exact ⟨id, hid, hcovers.object hmeans⟩

theorem HasModifier.of_covers {kind : String} {t u : Term} (h : HasModifier kind t c)
    (hcovers : t.Covers u) : HasModifier kind u c := by
  obtain ⟨value, hvalue, hmeans⟩ := h
  exact ⟨value, hvalue, hcovers.value hmeans⟩

theorem hasObject_of_forall₂ {role : Role} {i j : Option Term}
    (h : List.Forall₂ Term.Covers i.toList j.toList) (hi : ∀ t ∈ i, HasObject role t c owner) :
    ∀ u ∈ j, HasObject role u c owner := by
  rintro u rfl
  obtain ⟨t, rest, hcovers, -, hlist⟩ := List.forall₂_cons_right_iff.mp h
  have ht : t ∈ i := Option.mem_toList.mp (by rw [hlist]; exact List.mem_cons_self)
  exact (hi t ht).of_covers hcovers

theorem exists_getElem?_of_forall₂ (h : List.Forall₂ Term.Covers ts us) {i : Nat} {u : Term}
    (hu : us[i]? = some u) : ∃ t, ts[i]? = some t ∧ t.Covers u := by
  induction h generalizing i with
  | nil => cases hu
  | cons hcovers _ ih =>
    cases i with
    | zero =>
      cases hu
      exact ⟨_, rfl, hcovers⟩
    | succ i => exact ih hu

theorem Reading.Meets.of_covers {r q : Reading} (h : r.Meets c owner) (hverb : q.verb = r.verb)
    (hobject : List.Forall₂ Term.Covers r.object.toList q.object.toList)
    (hmodifiers : List.Forall₂ Term.Covers r.modifiers q.modifiers)
    (hclause : ∀ word i, q.clause = some (word, i) →
      c.preposition? = some word ∧ ∀ t ∈ i, HasObject .indirect t c owner)
    (hnoClause : q.clause = none → q.verb.isIndirectOptional = true ∨ c.preposition? = none) :
    q.Meets c owner where
  verb := hverb ▸ h.verb
  object := hasObject_of_forall₂ hobject h.object
  noObject hnone := by
    rw [hnone, Option.toList_none, List.forall₂_nil_right_iff, Option.toList_eq_nil_iff] at hobject
    exact h.noObject hobject
  clause := hclause
  noClause := hnoClause
  modifiers i kind u hkind hu := by
    obtain ⟨t, ht, hcovers⟩ := exists_getElem?_of_forall₂ hmodifiers hu
    exact (h.modifiers i kind t (hverb ▸ hkind) ht).of_covers hcovers
  noModifiers hnil := by
    rw [hnil, List.forall₂_nil_right_iff] at hmodifiers
    exact h.noModifiers hmodifiers

theorem OpensClause.of_meets {r : Reading} (h : OpensClause k r.clause clause') (hr : r.Meets c owner) :
    (∀ word i, clause' = some (word, i) →
      c.preposition? = some word ∧ ∀ t ∈ i, HasObject .indirect t c owner) ∧
    (clause' = none → r.verb.isIndirectOptional = true ∨ c.preposition? = none) := by
  generalize hclause : r.clause = clause at h
  cases h with
  | noClause => exact ⟨nofun, fun _ => hr.noClause hclause⟩
  | clause word h =>
    obtain ⟨hword, hi⟩ := hr.clause _ _ hclause
    refine ⟨?_, nofun⟩
    rintro word' j ⟨⟩
    exact ⟨hword, hasObject_of_forall₂ h.covers hi⟩

theorem Form.unique {key' : String} (h : Form e key args clause) (h' : Form e key' args' clause') :
    key = key' ∧ args = args' ∧ clause = clause' := by
  have heq := (ofExpr_eq_ok_iff.mpr (form_iff.mp h)).symm.trans (ofExpr_eq_ok_iff.mpr (form_iff.mp h'))
  obtain ⟨hverb, hclause⟩ := Pattern.mk.inj (Except.ok.inj heq)
  obtain ⟨hkey, hargs⟩ := Application.mk.inj hverb
  have hinj : Function.Injective Clause.application := by
    rintro ⟨word, i⟩ ⟨word', j⟩ happ
    obtain ⟨hword, hi⟩ := Application.mk.inj happ
    refine Prod.ext (Term.name.inj hword) ?_
    cases i <;> cases j <;> simp_all
  exact ⟨Term.name.inj hkey, hargs, Option.map_injective hinj hclause⟩

/-- What a pattern says that has the arguments and the clause. -/
def reading (v : Verb) (args : List Term) (clause : Option Clause) : Reading :=
  ⟨v, (arguments v args).1, (arguments v args).2, clause⟩

theorem matcher_eq_ok_iff_of_form (h : Form e key args clause) : matcher verbs e = .ok m ↔
    ∃ v, Dictionary.get? key verbs = some v ∧ (arguments v args).2.length ≤ v.modifiers.length ∧
      m = (reading v args clause).matcher := by
  refine matcher_eq_ok_iff_says.trans ?_
  constructor
  · rintro ⟨key', r, ⟨⟨args', hform, htakes⟩, hverb, hkinds⟩, rfl⟩
    obtain ⟨rfl, rfl, hclause⟩ := h.unique hform
    have hargs := takes_iff.mp htakes
    have hr : r = reading r.verb args clause := by
      rw [reading, hargs, hclause]
    exact ⟨r.verb, hverb, by rw [hargs]; exact hkinds, by rw [← hr]⟩
  · rintro ⟨v, hverb, hkinds, rfl⟩
    exact ⟨key, reading v args clause, ⟨⟨args, h, takes_iff.mpr rfl⟩, hverb, hkinds⟩, rfl⟩

theorem Opens.of_meets (hargs : Opens k args args') (hclause : OpensClause l clause clause')
    (h : (reading v args clause).Meets c owner) : (reading v args' clause').Meets c owner := by
  obtain ⟨i, j, -, hobject, hmodifiers⟩ := hargs.split v
  obtain ⟨hmeets, hnone⟩ := hclause.of_meets h
  exact h.of_covers rfl hobject.covers hmodifiers.covers hmeets hnone

theorem Opens.score (hargs : Opens k args args') (hclause : OpensClause l clause clause') (v : Verb) :
    (reading v args' clause').score + 5 * (k + l) = (reading v args clause).score := by
  obtain ⟨i, j, rfl, hobject, hmodifiers⟩ := hargs.split v
  have hobjectWorth := hobject.worth
  have hmodifiersWorth := hmodifiers.worth
  have hclauseScore := hclause.clauseScore
  simp only [Reading.score, reading]
  omega

theorem Opens.length_modifiers (hargs : Opens k args args') (v : Verb) :
    (arguments v args').2.length = (arguments v args).2.length := by
  obtain ⟨i, j, -, -, hmodifiers⟩ := hargs.split v
  exact hmodifiers.covers.length_eq.symm

theorem Term.score_pos (t : Term) : 0 < t.score := by
  cases t <;> exact Nat.succ_pos _

/-- A pattern with `k` names among its arguments, the indirect object included, and a pattern that
captures in their places. -/
inductive Captures : Nat → Expr → Expr → Prop
  | mk {e f : Expr} {key : String} {args args' : List Term} {clause clause' : Option Clause} {k l : Nat}
      (he : Form e key args clause) (hf : Form f key args' clause') (hargs : Opens k args args')
      (hclause : OpensClause l clause clause') : Captures (k + l) e f

/-- A pattern with an indirect object and the pattern without it, or a pattern with a clause and, if its
verb allows any preposition, the pattern without it. -/
inductive Drops (verbs : VerbTable) : Expr → Expr → Prop
  | object {e f : Expr} {key word : String} {args : List Term} {t : Term}
      (he : Form e key args (some (word, some t))) (hf : Form f key args (some (word, none))) :
      Drops verbs e f
  | clause {e f : Expr} {key : String} {args : List Term} {clause : Clause} {v : Verb}
      (he : Form e key args (some clause)) (hf : Form f key args none)
      (hv : Dictionary.get? key verbs = some v) (hoptional : v.isIndirectOptional = true) :
      Drops verbs e f

theorem Captures.exists_matcher (h : Captures k e f) (hm : matcher verbs e = .ok m) :
    ∃ q, matcher verbs f = .ok q ∧ ∀ c owner hit, m c owner = some hit →
      ∃ other, q c owner = some other ∧ other.score + 5 * k = hit.score := by
  obtain ⟨he, hf, hargs, hclause⟩ := h
  obtain ⟨v, hv, hkinds, rfl⟩ := (matcher_eq_ok_iff_of_form he).mp hm
  have hkinds' := Nat.le_trans (Nat.le_of_eq (hargs.length_modifiers v)) hkinds
  refine ⟨_, (matcher_eq_ok_iff_of_form hf).mpr ⟨v, hv, hkinds', rfl⟩, fun c owner hit hhit => ?_⟩
  obtain ⟨other, hother, hscore, hscore'⟩ :=
    Reading.exists_hit hkinds hkinds' (hargs.of_meets hclause) hhit
  exact ⟨other, hother, by rw [hscore, hscore', hargs.score hclause v]⟩

theorem Drops.exists_matcher (h : Drops verbs e f) (hm : matcher verbs e = .ok m) :
    ∃ q, matcher verbs f = .ok q ∧ ∀ c owner hit, m c owner = some hit →
      ∃ other, q c owner = some other ∧ other.score < hit.score := by
  have hrefl : ∀ ts : List Term, List.Forall₂ Term.Covers ts ts :=
    fun ts => List.forall₂_same.mpr fun t _ => .refl t
  cases h with
  | @object key word args t he hf =>
    obtain ⟨v, hv, hkinds, rfl⟩ := (matcher_eq_ok_iff_of_form he).mp hm
    refine ⟨_, (matcher_eq_ok_iff_of_form hf).mpr ⟨v, hv, hkinds, rfl⟩, fun c owner hit hhit => ?_⟩
    have hmeets : (reading v args (some (word, some t))).Meets c owner →
        (reading v args (some (word, none))).Meets c owner := by
      intro h
      refine h.of_covers rfl (hrefl _) (hrefl _) ?_ nofun
      rintro word' i ⟨⟩
      exact ⟨(h.clause _ _ rfl).1, nofun⟩
    obtain ⟨other, hother, hscore, hscore'⟩ := Reading.exists_hit hkinds hkinds hmeets hhit
    refine ⟨other, hother, ?_⟩
    have hpos := t.score_pos
    rw [hscore, hscore']
    simp only [Reading.score, reading, Reading.clauseScore, worth, Option.toList, List.map_nil,
      List.map_cons, List.sum_nil, List.sum_cons]
    omega
  | @clause key args clause v' he hf hv' hoptional =>
    obtain ⟨v, hv, hkinds, rfl⟩ := (matcher_eq_ok_iff_of_form he).mp hm
    obtain rfl : v' = v := Option.some.inj (hv'.symm.trans hv)
    refine ⟨_, (matcher_eq_ok_iff_of_form hf).mpr ⟨v', hv, hkinds, rfl⟩, fun c owner hit hhit => ?_⟩
    have hmeets : (reading v' args (some clause)).Meets c owner →
        (reading v' args none).Meets c owner := by
      intro h
      exact h.of_covers rfl (hrefl _) (hrefl _) nofun fun _ => .inl hoptional
    obtain ⟨other, hother, hscore, hscore'⟩ := Reading.exists_hit hkinds hkinds hmeets hhit
    refine ⟨other, hother, ?_⟩
    rw [hscore, hscore']
    simp only [Reading.score, reading, Reading.clauseScore, nameScore]
    omega

/-- Of actions with the matchers, one with the first is chosen and none with the other, wherever they
stand. -/
def Outranks (m q : Matcher) : Prop :=
  ∀ (c : Command) (owner : String) (actions : List Action) (a : Action), a ∈ actions → a.matcher = m →
    accepts m c owner = true → ∃ score found, Action.best owner c actions = some (score, found) ∧
      found.matcher ≠ q ∧ ((∀ x ∈ actions, x = a ∨ x.matcher = q) → found = a)

theorem outranks_of_lt (h : ∀ c owner hit, m c owner = some hit →
    ∃ other, q c owner = some other ∧ other.score < hit.score) : Outranks m q := by
  intro c owner actions a ha hmatcher haccepts
  obtain ⟨hit, hhit⟩ := Option.isSome_iff_exists.mp haccepts
  have hmem : a ∈ Action.accepting owner c actions :=
    List.mem_filter.mpr ⟨ha, by rw [hmatcher]; exact haccepts⟩
  cases hbest : Action.best owner c actions with
  | none =>
    rw [Action.best_eq_none_iff.mp hbest] at hmem
    cases hmem
  | some found =>
    obtain ⟨-, hfirst⟩ := Action.best_eq_some_iff.mp hbest
    have hne : found.2.matcher ≠ q := by
      intro hq
      obtain ⟨other, hother, hlt⟩ := h c owner hit hhit
      have hle := hfirst.le hmem
      rw [Action.score, Action.score, hmatcher, hq, score_of_eq_some hhit, score_of_eq_some hother] at hle
      exact Nat.not_le_of_lt hlt hle
    refine ⟨found.1, found.2, rfl, hne, fun hall => ?_⟩
    exact (hall _ (List.mem_filter.mp hfirst.mem).1).resolve_right hne

/-- A pattern that captures `k` of the names of another one is for all its commands and scores `5 * k`
less for them; one that drops its indirect object, or its clause where the verb allows any preposition,
is for all its commands too and scores less. Of actions with the two patterns those with the more
specific one are chosen, wherever they stand. -/
theorem specific_outranks_general (verbs : VerbTable) (e : Expr) (m : Matcher)
    (hm : matcher verbs e = .ok m) :
    (∀ k f, Captures k e f → ∃ q, matcher verbs f = .ok q ∧ ∀ c owner hit, m c owner = some hit →
      ∃ other, q c owner = some other ∧ other.score + 5 * k = hit.score) ∧
    (∀ f, Drops verbs e f → ∃ q, matcher verbs f = .ok q ∧ ∀ c owner hit, m c owner = some hit →
      ∃ other, q c owner = some other ∧ other.score < hit.score) ∧
    ∀ f q, (∃ k, 1 ≤ k ∧ Captures k e f) ∨ Drops verbs e f → matcher verbs f = .ok q →
      Outranks m q := by
  refine ⟨fun k f h => h.exists_matcher hm, fun f h => h.exists_matcher hm, fun f q h hq => ?_⟩
  have hless : ∃ q', matcher verbs f = .ok q' ∧ ∀ c owner hit, m c owner = some hit →
      ∃ other, q' c owner = some other ∧ other.score < hit.score := by
    rcases h with ⟨k, hk, h⟩ | h
    · obtain ⟨q', hq', hhits⟩ := h.exists_matcher hm
      refine ⟨q', hq', fun c owner hit hhit => ?_⟩
      obtain ⟨other, hother, hscore⟩ := hhits c owner hit hhit
      exact ⟨other, hother, by omega⟩
    · exact h.exists_matcher hm
  obtain ⟨q', hq', hhits⟩ := hless
  obtain rfl := Except.ok.inj (hq'.symm.trans hq)
  exact outranks_of_lt hhits

/-- The patterns `stir(object).with(tool)` for some words. -/
def stirWith (object tool : String) : Expr :=
  .call (.member (.call (.identifier "stir" .default) [.identifier object .default] .default) "with"
    .default) [.identifier tool .default] .default

/-- Someone stirs the pot with the spoon. -/
def stirring : Command :=
  (((Command.empty.withVerb stir).withObject "pot").withPreposition "with").withObject "spoon"

theorem form_stirWith_pot_this : Form (stirWith "pot" "this") "stir" [.name "pot"]
    (some ("with", some (.name "this"))) := by
  have happlies : Applies (.call (.identifier "stir" .default) [.identifier "pot" .default] .default)
      (.name "stir") [.name "pot"] :=
    .called (.word (by simp)) (.cons (.word (by simp)) .nil)
  exact .calledWith happlies (by simp) (.word (by simp))

theorem form_stirWith_captures : Form (stirWith "$pot" "$tool") "stir" [.capture "$pot"]
    (some ("with", some (.capture "$tool"))) := by
  have happlies : Applies (.call (.identifier "stir" .default) [.identifier "$pot" .default] .default)
      (.name "stir") [.capture "$pot"] :=
    .called (.word (by simp)) (.cons (.capture (by simp)) .nil)
  exact .calledWith happlies (by simp) (.capture (by simp))

theorem captures_stirWith : Captures 2 (stirWith "pot" "this") (stirWith "$pot" "$tool") :=
  .mk form_stirWith_pot_this form_stirWith_captures (.capture _ _ .nil)
    (.clause "with" (.capture _ _ .nil))

/-- The owner is among the names that are captured. -/
theorem specific_outranks_general_stir : ∃ m q : Matcher,
    matcher (VerbTable.ofVerbs [stir]) (stirWith "pot" "this") = .ok m ∧
    matcher (VerbTable.ofVerbs [stir]) (stirWith "$pot" "$tool") = .ok q ∧
    (m stirring "spoon").map Hit.score = some 40 ∧ (q stirring "spoon").map Hit.score = some 30 ∧
    Outranks m q := by
  have hm : matcher (VerbTable.ofVerbs [stir]) (stirWith "pot" "this") =
      .ok (reading stir [.name "pot"] (some ("with", some (.name "this")))).matcher :=
    (matcher_eq_ok_iff_of_form form_stirWith_pot_this).mpr ⟨stir, rfl, Nat.le_refl 0, rfl⟩
  obtain ⟨hcaptures, -, houtranks⟩ := specific_outranks_general _ _ _ hm
  obtain ⟨q, hq, hhits⟩ := hcaptures 2 _ captures_stirWith
  have hpot : ((reading stir [.name "pot"] (some ("with", some (.name "this")))).matcher stirring
      "spoon").map Hit.score = some 40 := rfl
  obtain ⟨hit, hhit, hscore⟩ := Option.map_eq_some_iff.mp hpot
  obtain ⟨other, hother, hless⟩ := hhits stirring "spoon" hit hhit
  refine ⟨_, q, hm, hq, hpot, ?_, houtranks _ q (.inl ⟨2, by decide, captures_stirWith⟩) hq⟩
  rw [hother, Option.map_some]
  exact congrArg some (by omega)

end Pattern

end TextAdventure
