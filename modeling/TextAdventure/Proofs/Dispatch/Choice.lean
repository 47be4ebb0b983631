import TextAdventure.Proofs.Command.Conjunction
import TextAdventure.Proofs.Dispatch.Protocol

/-! # The choice of an action

The best action of each owner, and of these the best again, is the first of all actions with the highest
score. The main statement is `main_action_is_global_best`.
-/
namespace TextAdventure

/-- An item is the first of those with the highest score. -/
def IsFirstBest {α : Type} (score : α → Nat) (xs : List α) (x : α) : Prop :=
  ∃ pre post, xs = pre ++ x :: post ∧ (∀ y ∈ pre, score y < score x) ∧ ∀ y ∈ post, score y ≤ score x

namespace IsFirstBest

variable {α : Type} {score : α → Nat} {xs : List α} {x y : α}

theorem mem (h : IsFirstBest score xs x) : x ∈ xs := by
  obtain ⟨pre, post, rfl, -, -⟩ := h
  exact List.mem_append_right pre List.mem_cons_self

theorem le (h : IsFirstBest score xs x) (hy : y ∈ xs) : score y ≤ score x := by
  obtain ⟨pre, post, rfl, hpre, hpost⟩ := h
  rcases List.mem_append.mp hy with hy | hy
  · exact Nat.le_of_lt (hpre y hy)
  · rcases List.mem_cons.mp hy with rfl | hy
    · exact Nat.le_refl _
    · exact hpost y hy

theorem eq (hx : IsFirstBest score xs x) (hy : IsFirstBest score xs y) : x = y := by
  have hxy := hy.le hx.mem
  have hyx := hx.le hy.mem
  obtain ⟨pre, post, rfl, hpre, -⟩ := hx
  obtain ⟨pre', post', heq, hpre', -⟩ := hy
  -- whichever of the two stands first scores less than the other, unless they stand at one place
  rcases List.append_eq_append_iff.mp heq with ⟨mid, rfl, h⟩ | ⟨mid, rfl, h⟩
  · cases mid with
    | nil => exact (List.cons.inj h).1
    | cons z mid =>
      obtain ⟨rfl, -⟩ := List.cons.inj h
      have hlt := hpre' x (by simp)
      omega
  · cases mid with
    | nil => exact (List.cons.inj h).1.symm
    | cons z mid =>
      obtain ⟨rfl, -⟩ := List.cons.inj h
      have hlt := hpre y (by simp)
      omega

end IsFirstBest

namespace Action

section Highest

variable {α : Type} {score : α → Nat} {xs : List α}

theorem highest_eq_none_iff {xs : List (Nat × α)} : highest xs = none ↔ xs = [] := by
  refine ⟨fun h => ?_, fun h => by rw [h]; rfl⟩
  have hxs := isHighest_highest xs
  rwa [h] at hxs

theorem isFirstBest_of_highest {found : Nat × α}
    (h : highest (xs.map fun x => (score x, x)) = some found) :
    found.1 = score found.2 ∧ IsFirstBest score xs found.2 := by
  have hxs := isHighest_highest (xs.map fun x => (score x, x))
  rw [h] at hxs
  obtain ⟨pre, post, hmap, hpre, hpost⟩ := hxs
  obtain ⟨before, rest, rfl, rfl, hrest⟩ := List.map_eq_append_iff.mp hmap
  obtain ⟨x, after, rfl, rfl, rfl⟩ := List.map_eq_cons_iff.mp hrest
  refine ⟨rfl, before, after, rfl, ?_, ?_⟩
  · exact fun y hy => hpre _ (List.mem_map_of_mem hy)
  · exact fun y hy => hpost _ (List.mem_map_of_mem hy)

theorem highest_map_eq_some_iff {found : Nat × α} :
    highest (xs.map fun x => (score x, x)) = some found ↔
      found.1 = score found.2 ∧ IsFirstBest score xs found.2 := by
  refine ⟨isFirstBest_of_highest, fun ⟨hscore, hbest⟩ => ?_⟩
  cases hhighest : highest (xs.map fun x => (score x, x)) with
  | none =>
    have hnil := List.map_eq_nil_iff.mp (highest_eq_none_iff.mp hhighest)
    have hmem := hbest.mem
    rw [hnil] at hmem
    cases hmem
  | some other =>
    obtain ⟨hother, hfirst⟩ := isFirstBest_of_highest hhighest
    have heq := hfirst.eq hbest
    rw [Option.some.injEq]
    exact Prod.ext (by rw [hother, hscore, heq]) heq

end Highest

variable {owner : String} {c : Command} {actions : List Action} {a : Action}

/-- The actions that the command matches. -/
def accepting (owner : String) (c : Command) (actions : List Action) : List Action :=
  actions.filter fun a => a.matcher.accepts c owner

def score (owner : String) (c : Command) (a : Action) : Nat :=
  a.matcher.score c owner

theorem filterMap_scored {β : Type} (f : Action → β) (owner : String) (c : Command)
    (actions : List Action) :
    (actions.filterMap fun a => (a.matcher c owner).map fun hit => (hit.score, f a)) =
      (accepting owner c actions).map fun a => (a.score owner c, f a) := by
  induction actions with
  | nil => rfl
  | cons a actions ih =>
    unfold accepting at ih ⊢
    cases ha : a.matcher c owner <;>
      simp [Matcher.accepts, score, Matcher.score, ha, ih]

theorem best_eq_highest (owner : String) (c : Command) (actions : List Action) :
    best owner c actions = highest ((accepting owner c actions).map fun a => (a.score owner c, a)) :=
  congrArg highest (filterMap_scored id owner c actions)

theorem best_eq_none_iff : best owner c actions = none ↔ accepting owner c actions = [] := by
  rw [best_eq_highest, highest_eq_none_iff, List.map_eq_nil_iff]

theorem best_eq_some_iff {found : Nat × Action} : best owner c actions = some found ↔
    found.1 = found.2.score owner c ∧
      IsFirstBest (score owner c) (accepting owner c actions) found.2 := by
  rw [best_eq_highest, highest_map_eq_some_iff]

theorem map_snd_best_eq_some_iff : (best owner c actions).map Prod.snd = some a ↔
    IsFirstBest (score owner c) (accepting owner c actions) a := by
  simp only [Option.map_eq_some_iff, best_eq_some_iff]
  constructor
  · rintro ⟨found, ⟨-, hbest⟩, rfl⟩
    exact hbest
  · exact fun hbest => ⟨(a.score owner c, a), ⟨rfl, hbest⟩, rfl⟩

end Action

namespace Registry

variable {owners : List String} {phase : Phase} {c : Command} {r : Registry}

/-- The actions of some owners for a phase that the command matches, each with its owner: owner by
owner, and those of an owner in the order of their declarations. -/
def candidates (owners : List String) (phase : Phase) (c : Command) (r : Registry) :
    List (String × Action) :=
  owners.flatMap fun owner => (Action.accepting owner c (r.actionsOf owner phase)).map (Prod.mk owner)

/-- The score of a candidate for a command. -/
def candidateScore (c : Command) (found : String × Action) : Nat :=
  found.2.score found.1 c

theorem matching_eq_map (owners : List String) (phase : Phase) (c : Command) (r : Registry) :
    r.matching owners phase c =
      (r.candidates owners phase c).map fun found => (candidateScore c found, found) := by
  rw [matching, candidates, List.map_flatMap]
  refine congrArg (fun f => owners.flatMap f) (funext fun owner => ?_)
  rw [Action.filterMap_scored (Prod.mk owner), List.map_map]
  rfl

theorem bestMain_eq_none_iff : r.bestMain owners c = none ↔ r.candidates owners .main c = [] := by
  rw [← r.highest_matching_main, Option.map_eq_none_iff, Action.highest_eq_none_iff, matching_eq_map,
    List.map_eq_nil_iff]

theorem bestMain_eq_some_iff {found : String × Action} : r.bestMain owners c = some found ↔
    IsFirstBest (candidateScore c) (r.candidates owners .main c) found := by
  rw [← r.highest_matching_main, matching_eq_map]
  simp only [Option.map_eq_some_iff, Action.highest_map_eq_some_iff]
  constructor
  · rintro ⟨best, ⟨-, hbest⟩, rfl⟩
    exact hbest
  · exact fun hbest => ⟨(candidateScore c found, found), ⟨rfl, hbest⟩, rfl⟩

end Registry

open Execution

namespace Course

variable {c : Command} {course : Course c} {r : Registry} {owners : List String}

/-- A main action is executed if there are any that the command matches and no before action fails or
handles the command; it is the first of the best. -/
structure PerformsBest (course : Course c) (r : Registry) (owners : List String) : Prop where
  performs : course.main ≠ [] ↔
    course.before.any (halts Resolved.isHandled) = false ∧ r.candidates owners .main c ≠ []
  best : ∀ e ∈ course.main, ∃ found,
    IsFirstBest (Registry.candidateScore c) (r.candidates owners .main c) found ∧
      e.body = .action found.1 found.2
  atMostOne : course.main.length ≤ 1

theorem FollowsPhases.performsBest (h : course.FollowsPhases r owners) :
    course.PerformsBest r owners := by
  have hmain := h.main
  cases hhalts : course.before.any (halts Resolved.isHandled) with
  | true =>
    rw [hhalts, if_pos rfl, List.map_eq_nil_iff] at hmain
    exact ⟨by simp [hmain, hhalts], by simp [hmain], by simp [hmain]⟩
  | false =>
    rw [hhalts, if_neg Bool.false_ne_true, Registry.mainBody] at hmain
    cases hbest : r.bestMain owners c with
    | none =>
      rw [hbest, Option.map_none, Option.toList_none, List.map_eq_nil_iff] at hmain
      have hnone := Registry.bestMain_eq_none_iff.mp hbest
      exact ⟨by simp [hmain, hnone], by simp [hmain], by simp [hmain]⟩
    | some found =>
      rw [hbest, Option.map_some, Option.toList_some] at hmain
      obtain ⟨e, rest, hcourse, hbody, hrest⟩ := List.map_eq_cons_iff.mp hmain
      obtain rfl := List.map_eq_nil_iff.mp hrest
      have hfound := Registry.bestMain_eq_some_iff.mp hbest
      have hne := List.ne_nil_of_mem hfound.mem
      refine ⟨by simp [hcourse, hhalts, hne], ?_, by simp [hcourse]⟩
      intro e' he'
      rw [hcourse, List.mem_singleton] at he'
      exact ⟨found, hfound, he' ▸ hbody⟩

end Course

namespace Registry

/-- The best main action of any owners, and the best action of one owner for a phase, is the first with
the highest score of all that the command matches, and there is none only if there are none that it
matches. In every run a main action is executed exactly if there is one and no before action failed or
handled the command, and then it is the best one. -/
theorem main_action_is_global_best (owners : List String) (c : Command) (r : Registry) :
    (r.bestMain owners c = none ↔ r.candidates owners .main c = []) ∧
    (∀ found, r.bestMain owners c = some found ↔
      IsFirstBest (candidateScore c) (r.candidates owners .main c) found) ∧
    (∀ s, ∃ course : Course c,
      course.IsRun r owners s (Eval.runOn (r.runPhases owners c) s) ∧ course.PerformsBest r owners) ∧
    (∀ (around : Surroundings) (s : Store), ∃ (course : Course c) (t : Store) (outcome : Outcome),
      course.Follows r (around.owners c) ∧ Leads s course.all t ∧
      Eval.runOn (r.dispatch c around) s = (verdict course.all outcome, t) ∧
      course.PerformsBest r (around.owners c)) ∧
    ∀ owner phase,
      (r.best owner phase c = none ↔ Action.accepting owner c (r.actionsOf owner phase) = []) ∧
      ∀ a, (r.best owner phase c).map Prod.snd = some a ↔
        IsFirstBest (Action.score owner c) (Action.accepting owner c (r.actionsOf owner phase)) a := by
  refine ⟨bestMain_eq_none_iff, fun found => bestMain_eq_some_iff, fun s => ?_, fun around s => ?_,
    fun owner phase => ⟨Action.best_eq_none_iff, fun a => Action.map_snd_best_eq_some_iff⟩⟩
  · obtain ⟨course, hrun⟩ := r.runPhases_executes owners c s
    exact ⟨course, hrun, hrun.follows.performsBest⟩
  · obtain ⟨course, t, hfollows, hleads, hrun, -⟩ := r.dispatch_executes c around s
    exact ⟨course, t, _, hfollows, hleads, hrun, hfollows.performsBest⟩

end Registry

/-- An action that does nothing and handles the command `wait`. -/
def Action.waiting (phase : Phase) : Action :=
  ⟨phase, "wait", Matcher.verb "wait", .constant (.bool true)⟩

def Command.wait : Command :=
  Command.empty.withVerb (.new "wait")

theorem Action.runOn_perform_waiting (phase : Phase) (s : Store) :
    (Eval.runOn ((Action.waiting phase).perform "wait" Command.wait) s).1 =
      .ok (.value (.bool true)) := by
  have hmatches : (Action.waiting phase).matcher Command.wait "wait" =
      some (.ofScore Matcher.nameScore) := by
    simp [Action.waiting, Command.wait, Matcher.verb, Matcher.named, Verb.new]
  rw [Action.perform, hmatches]
  simp only [Eval.runOn_mapError, Action.inScopes, Eval.runOn_bind, Eval.runOn_get, Eval.runOn_inScope]
  cases hentity : s.hasEntity "wait" <;>
    simp [Action.waiting, Rule.resolve, Eval.runOn_inScope, Except.mapError]

namespace Registry

/-- A before action that handles the command keeps the main action from being executed. -/
theorem not_main_action_whenever_candidates :
    ¬ ∀ (c : Command) (around : Surroundings) (r : Registry) (s : Store),
      ∃ (course : Course c) (t : Store) (outcome : Outcome),
        course.Follows r (around.owners c) ∧ Leads s course.all t ∧
        Eval.runOn (r.dispatch c around) s = (verdict course.all outcome, t) ∧
        (course.main ≠ [] ↔ r.candidates (around.owners c) .main c ≠ []) := by
  intro h
  let r := (empty.add "wait" (.waiting .before)).add "wait" (.waiting .main)
  obtain ⟨course, t, outcome, hfollows, -, -, hiff⟩ :=
    h .wait ⟨none, []⟩ r (.new 0 Store.defaultMaxCalls)
  have howners : Surroundings.owners .wait ⟨none, []⟩ = ["wait"] := by decide
  rw [howners] at hfollows hiff
  have hbefore : r.bestOfEach ["wait"] .before .wait = [.action "wait" (.waiting .before)] := by
    rfl
  have hcandidates : r.candidates ["wait"] .main .wait = [("wait", .waiting .main)] := by
    rfl
  have hhandles : ∀ e : Execution .wait, e.body = .action "wait" (.waiting .before) →
      halts Resolved.isHandled e = true := by
    intro e he
    have hresult : e.result = .ok (.value (.bool true)) := by
      rw [result, he]
      exact Action.runOn_perform_waiting .before e.start
    rw [halts, hresult]
    rfl
  have hstops : course.before.any (halts Resolved.isHandled) = true := by
    rw [List.any_eq_true]
    rcases hfollows.before.ends with ⟨e, he, hhalts⟩ | hall
    · exact ⟨e, List.mem_of_getLast? he, hhalts⟩
    · rw [hbefore] at hall
      obtain ⟨e, rest, hes, hbody, -⟩ := List.map_eq_cons_iff.mp hall
      exact ⟨e, by simp [hes], hhandles e hbody⟩
  have hmain := hiff.mpr (by rw [hcandidates]; exact List.cons_ne_nil _ _)
  rw [hfollows.performsBest.performs, hstops] at hmain
  exact Bool.noConfusion hmain.1

end Registry

end TextAdventure
