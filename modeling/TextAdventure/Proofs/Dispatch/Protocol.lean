import TextAdventure.Proofs.Dispatch.Course
import TextAdventure.Proofs.Scene.Completion

/-! # The protocol of a dispatch

Every dispatch executes bodies in the order of its protocol, ends with the first of them that fails, and
gives the lines that they wrote. The main statements are `dispatch_follows_protocol` for the bodies and
the result, and `dispatch_accounts_for_lines` for the output.
-/
namespace TextAdventure

/-- The entities and the verb that a command and its surroundings name, in the order in which they are
visited. -/
def Surroundings.named (c : Command) (around : Surroundings) : List String :=
  (c.object? .indirect).toList ++ (c.object? .direct).toList ++ around.location.toList ++
    around.context.reverse ++ (c.verb?.map Verb.id).toList

theorem pairwise_idxOf_firstOfEach (as : List String) :
    (firstOfEach id as).Pairwise fun a b => as.idxOf a < as.idxOf b := by
  induction as with
  | nil => exact List.Pairwise.nil
  | cons a as ih =>
    have hne : ∀ b ∈ (firstOfEach id as).filter fun b => id b ≠ id a, b ≠ a := by
      intro b hb
      simpa using (List.mem_filter.mp hb).2
    refine List.pairwise_cons.mpr ⟨?_, ?_⟩
    · intro b hb
      rw [List.idxOf_cons_self, List.idxOf_cons_ne as (hne b hb).symm]
      exact Nat.succ_pos _
    · refine (ih.filter _).imp_of_mem fun {b b'} hb hb' hlt => ?_
      rw [List.idxOf_cons_ne as (hne b hb).symm, List.idxOf_cons_ne as (hne b' hb').symm]
      exact Nat.succ_lt_succ hlt

theorem mem_owners_iff {c : Command} {around : Surroundings} {owner : String} :
    owner ∈ around.owners c ↔ owner ∈ around.named c := by
  rw [Surroundings.owners, firstOfEach_id_eq, List.mem_eraseDups]
  rfl

namespace Action

variable {α β γ : Type}

/-- The first of the items that no other has a higher score than. There is none only if there are no
items. -/
def IsHighest (xs : List (Nat × α)) : Option (Nat × α) → Prop
  | none => xs = []
  | some x => ∃ pre post, xs = pre ++ x :: post ∧ (∀ y ∈ pre, y.1 < x.1) ∧ ∀ y ∈ post, y.1 ≤ x.1

theorem isHighest_highest (xs : List (Nat × α)) : IsHighest xs (highest xs) := by
  induction xs with
  | nil => rfl
  | cons x xs ih =>
    unfold highest
    cases hxs : highest xs with
    | none =>
      rw [hxs] at ih
      have hnil : xs = [] := ih
      exact ⟨[], [], by rw [hnil, List.nil_append], by simp, by simp⟩
    | some y =>
      rw [hxs] at ih
      obtain ⟨pre, post, rfl, hpre, hpost⟩ := ih
      dsimp only
      by_cases hlt : x.1 < y.1
      · rw [if_pos hlt]
        refine ⟨x :: pre, post, rfl, ?_, hpost⟩
        intro z hz
        rcases List.mem_cons.mp hz with rfl | hz
        · exact hlt
        · exact hpre z hz
      · rw [if_neg hlt]
        have hle : y.1 ≤ x.1 := Nat.le_of_not_lt hlt
        refine ⟨[], pre ++ y :: post, rfl, by simp, ?_⟩
        intro z hz
        rcases List.mem_append.mp hz with hz | hz
        · exact Nat.le_trans (Nat.le_of_lt (hpre z hz)) hle
        · rcases List.mem_cons.mp hz with rfl | hz
          · exact hle
          · exact Nat.le_trans (hpost z hz) hle

/-- The higher of two choices, of equally high ones the first. -/
def higher : Option (Nat × α) → Option (Nat × α) → Option (Nat × α)
  | none, found => found
  | some x, none => some x
  | some x, some y => if x.1 < y.1 then some y else some x

theorem highest_cons (x : Nat × α) (xs : List (Nat × α)) :
    highest (x :: xs) = higher (some x) (highest xs) := by
  rw [highest]
  cases highest xs <;> rfl

theorem higher_assoc (a b c : Option (Nat × α)) :
    higher (higher a b) c = higher a (higher b c) := by
  rcases a with _ | x <;> rcases b with _ | y <;> rcases c with _ | z <;> try rfl
  · by_cases hxy : x.1 < y.1 <;> simp [higher, hxy]
  · by_cases hxy : x.1 < y.1 <;> by_cases hyz : y.1 < z.1 <;> by_cases hxz : x.1 < z.1 <;>
      simp [higher, hxy, hyz, hxz] <;> omega

theorem highest_append (xs ys : List (Nat × α)) :
    highest (xs ++ ys) = higher (highest xs) (highest ys) := by
  induction xs with
  | nil => rfl
  | cons x xs ih => rw [List.cons_append, highest_cons, highest_cons, ih, higher_assoc]

theorem highest_flatMap (f : β → List (Nat × α)) (bs : List β) :
    highest (bs.flatMap f) = highest (bs.filterMap fun b => highest (f b)) := by
  induction bs with
  | nil => rfl
  | cons b bs ih =>
    rw [List.flatMap_cons, highest_append, ih]
    cases hb : highest (f b) with
    | none => simp only [List.filterMap_cons, hb, higher]
    | some x => simp only [List.filterMap_cons, hb, highest_cons]

theorem highest_map (f : α → γ) (xs : List (Nat × α)) :
    highest (xs.map (Prod.map id f)) = (highest xs).map (Prod.map id f) := by
  induction xs with
  | nil => rfl
  | cons x xs ih =>
    rw [List.map_cons, highest_cons, highest_cons, ih]
    cases highest xs with
    | none => rfl
    | some y => by_cases hlt : x.1 < y.1 <;> simp [higher, hlt]

end Action

namespace Registry

/-- The actions of some owners for a phase that match the command, with their scores and owners. -/
def matching (owners : List String) (phase : Phase) (c : Command) (r : Registry) :
    List (Nat × String × Action) :=
  owners.flatMap fun owner => (r.actionsOf owner phase).filterMap fun a =>
    (a.matcher c owner).map fun hit => (hit.score, owner, a)

theorem highest_matching_owner (owner : String) (phase : Phase) (c : Command) (r : Registry) :
    Action.highest (r.matching [owner] phase c) =
      (r.best owner phase c).map (Prod.map id (Prod.mk owner)) := by
  rw [best, Action.best, ← Action.highest_map, List.map_filterMap, matching, List.flatMap_singleton]
  congr 2
  funext a
  rw [Action.scored, Option.map_map]
  rfl

theorem highest_matching_main (owners : List String) (c : Command) (r : Registry) :
    (Action.highest (r.matching owners .main c)).map Prod.snd = r.bestMain owners c := by
  have hbest := fun owner => r.highest_matching_owner owner .main c
  simp only [matching, List.flatMap_singleton] at hbest
  simp only [matching, Action.highest_flatMap, hbest]
  rfl

end Registry

namespace Execution

variable {c : Command} {es fs : List (Execution c)} {e : Execution c}

/-- Nothing comes after an execution that fails. -/
def EndsAtError (es : List (Execution c)) : Prop :=
  ∀ e ∈ es.dropLast, e.fails = false

theorem fails_of_firstError (h : firstError es = none) (he : e ∈ es) : e.fails = false := by
  rw [fails, List.findSome?_eq_none_iff.mp h e he, Option.isSome_none]

theorem fails_of_halts {ends : Resolved → Bool} (h : halts ends e = false) : e.fails = false := by
  unfold halts at h
  cases hr : e.result with
  | ok r => exact fails_of_ok hr
  | error x =>
    rw [hr] at h
    cases h

theorem EndsAtError.append (hes : EndsAtError es) (hfs : EndsAtError fs)
    (h : fs ≠ [] → firstError es = none) : EndsAtError (es ++ fs) := by
  cases fs with
  | nil => rwa [List.append_nil]
  | cons f fs =>
    intro e he
    rw [List.dropLast_append_of_ne_nil (List.cons_ne_nil f fs)] at he
    rcases List.mem_append.mp he with he | he
    · exact fails_of_firstError (h (List.cons_ne_nil f fs)) he
    · exact hfs e he

theorem endsAtError_of_length_le_one (h : es.length ≤ 1) : EndsAtError es := by
  intro e he
  have hpos := List.length_pos_of_mem he
  rw [List.length_dropLast] at hpos
  omega

theorem Sweeps.endsAtError {bodies : List Body} (h : Sweeps fails bodies es) : EndsAtError es :=
  h.goesOn

end Execution

namespace Course.Follows

open Execution

variable {c : Command} {course : Course c} {r : Registry} {owners : List String}
  (h : course.Follows r owners)
include h

theorem length_main_le_one : course.main.length ≤ 1 := by
  have hlength := congrArg List.length h.main
  rw [List.length_map] at hlength
  rw [hlength]
  split
  · exact Nat.zero_le 1
  · cases r.mainBody owners c <;> simp

theorem firstError_before (hne : course.main ≠ []) : firstError course.before = none := by
  have hmain := h.main
  cases herror : firstError course.before with
  | none => rfl
  | some x =>
    rw [if_pos (any_halts_of_firstError _ herror)] at hmain
    exact absurd (List.map_eq_nil_iff.mp hmain) hne

theorem firstError_main (hne : course.after ≠ []) :
    firstError (course.before ++ course.main) = none := by
  have hafter := h.after
  cases hany : course.main.any handles with
  | false =>
    rw [hany] at hafter
    exact absurd hafter hne
  | true =>
    have hlength := h.length_main_le_one
    have hbefore := h.firstError_before
    match hmain : course.main with
    | [] =>
      rw [hmain] at hany
      cases hany
    | [e] =>
      rw [hmain] at hany hbefore
      rw [firstError_append, hbefore (List.cons_ne_nil e [])]
      have hhandles : e.handles = true := by simpa using hany
      unfold handles at hhandles
      cases hr : e.result with
      | ok result => simp [firstError, error?_of_ok hr]
      | error x => simp [hr] at hhandles
    | _ :: _ :: _ =>
      rw [hmain] at hlength
      simp at hlength

theorem firstError_phases (hne : course.endOfTurn ≠ []) : firstError course.phases = none := by
  by_contra herror
  have hendOfTurn := h.endOfTurn
  rw [if_neg fun hends => herror hends.1] at hendOfTurn
  exact hne hendOfTurn

theorem endsAtError : EndsAtError course.all := by
  have hbefore : EndsAtError course.before :=
    fun e he => fails_of_halts (h.before.goesOn e he)
  have hmain : EndsAtError course.main := endsAtError_of_length_le_one h.length_main_le_one
  have hafter : EndsAtError course.after := by
    have hafter := h.after
    split at hafter
    · exact hafter.endsAtError
    · rw [hafter]
      exact endsAtError_of_length_le_one (Nat.zero_le 1)
  have hendOfTurn : EndsAtError course.endOfTurn := by
    have hendOfTurn := h.endOfTurn
    split at hendOfTurn
    · exact hendOfTurn.endsAtError
    · rw [hendOfTurn]
      exact endsAtError_of_length_le_one (Nat.zero_le 1)
  exact ((hbefore.append hmain h.firstError_before).append hafter h.firstError_main).append
    hendOfTurn h.firstError_phases

end Course.Follows

open Execution

theorem Course.isSome_phase {c : Command} (course : Course c) :
    course.phase.isSome = (course.before ++ course.main).any handles := by
  rw [Course.phase, List.any_append]
  cases course.before.any handles <;> cases course.main.any handles <;>
    cases course.after.any handles <;> rfl

namespace Registry

/-- Every dispatch follows the protocol: the owners are those that the command and its surroundings
name, once each in the order of their first mention, and what is executed for them are their best
actions and the rules of the end of the turn, as `Course.Follows` says. At most one main action is
executed and nothing after the first error, which is the result if there is one. Otherwise the result
tells the phase, and the command is handled if a before action or the main action handled it. -/
theorem dispatch_follows_protocol (c : Command) (around : Surroundings) (r : Registry) (s : Store) :
    ∃ (course : Course c) (t : Store) (outcome : Outcome),
      course.Follows r (around.owners c) ∧ Leads s course.all t ∧
      Eval.runOn (r.dispatch c around) s = (verdict course.all outcome, t) ∧
      outcome.phase = course.phase ∧
      outcome.handled = (course.before ++ course.main).any handles ∧
      EndsAtError course.all ∧ course.main.length ≤ 1 ∧
      (∀ owner, owner ∈ around.owners c ↔ owner ∈ around.named c) ∧
      (around.owners c).Pairwise (fun a b =>
        (around.named c).idxOf a < (around.named c).idxOf b) ∧
      (∀ owner phase, Action.IsHighest (r.matching [owner] phase c)
        ((r.best owner phase c).map (Prod.map id (Prod.mk owner)))) ∧
      ∃ found, Action.IsHighest (r.matching (around.owners c) .main c) found ∧
        r.bestMain (around.owners c) c = found.map Prod.snd := by
  obtain ⟨course, t, hfollows, hleads, hrun, _⟩ := r.dispatch_executes c around s
  refine ⟨course, t, ⟨course.phase, c.isInstant, course.output⟩, hfollows, hleads, hrun, rfl,
    course.isSome_phase, hfollows.endsAtError, hfollows.length_main_le_one,
    fun owner => mem_owners_iff, pairwise_idxOf_firstOfEach _, ?_, ?_⟩
  · intro owner phase
    rw [← r.highest_matching_owner]
    exact Action.isHighest_highest _
  · exact ⟨_, Action.isHighest_highest _, (r.highest_matching_main _ c).symm⟩

/-- Every line that a dispatch writes is accounted for: those of the before actions, of the after
actions and of the end of the turn are given in this order, and those of the main action in their place
unless an after action handled the command. If something fails they are all lost. Either way the output
buffers are what they were before. -/
theorem dispatch_accounts_for_lines (c : Command) (around : Surroundings) (r : Registry)
    (s : Store) :
    ∃ (course : Course c) (t : Store),
      course.Follows r (around.owners c) ∧ Leads s course.all t ∧
      Eval.runOn (r.dispatch c around) s =
        (verdict course.all ⟨course.phase, c.isInstant,
          if course.after.any handles then
            writtenBy course.before ++ writtenBy course.after ++ writtenBy course.endOfTurn
          else
            writtenBy course.before ++ writtenBy course.main ++ writtenBy course.after ++
              writtenBy course.endOfTurn⟩, t) ∧
      t.lines = s.lines ∧ t.outerLines = s.outerLines := by
  obtain ⟨course, t, hfollows, hleads, hrun, hlines, houter⟩ := r.dispatch_executes c around s
  refine ⟨course, t, hfollows, hleads, ?_, hlines, houter⟩
  rw [hrun, Course.output, Course.phaseOutput]
  cases course.after.any handles <;> rfl

end Registry

end TextAdventure
