import TextAdventure.Proofs.Dispatch.Execution
import TextAdventure.Proofs.Dispatch.Invariant

/-! # The course of a dispatch

The executions of a dispatch are told apart by their part in it. Which of them there are, in which order
and what comes out of them follows from how each of them ends.
-/
namespace TextAdventure

namespace Store

variable {s t u : Store}

/-- The store without anything about output. -/
def silent (s : Store) : Store :=
  { s with lines := [], outerLines := [] }

theorem silent_pushBuffer (s : Store) : s.pushBuffer.silent = s.silent :=
  rfl

theorem silent_writeLines (lines : List String) (s : Store) :
    (s.writeLines lines).silent = s.silent :=
  rfl

theorem Balanced.popBuffer_eq (h : Balanced s.pushBuffer t) :
    t.popBuffer = (t.lines, { t with lines := s.lines, outerLines := s.outerLines }) := by
  have houter : t.outerLines = s.lines :: s.outerLines := h.outerLines
  rw [popBuffer, houter]

theorem runOn_buffered_of_balanced {α : Type} {m : Eval α}
    (h : Balanced s.pushBuffer (Eval.runOn m s.pushBuffer).2) :
    Eval.runOn (Eval.buffered m) s =
      (.ok ((Eval.runOn m s.pushBuffer).1, (Eval.runOn m s.pushBuffer).2.lines),
        { (Eval.runOn m s.pushBuffer).2 with lines := s.lines, outerLines := s.outerLines }) := by
  rw [Eval.runOn_buffered, h.popBuffer_eq]

theorem balanced_buffered {α : Type} {m : Eval α} (hm : Eval.Respects Balanced m) :
    Eval.Respects Balanced (Eval.buffered m) := by
  intro s
  have h := hm s.pushBuffer
  rw [runOn_buffered_of_balanced h]
  exact ⟨h.frames, h.activeCalls, rfl, [], (List.append_nil _).symm⟩

end Store

namespace Execution

variable {c : Command} {es fs : List (Execution c)} {s t u : Store}

/-- The executions follow one another from one store to another. In between only output is collected,
put back or thrown away. -/
def Leads : Store → List (Execution c) → Store → Prop
  | s, [], t => t.silent = s.silent
  | s, e :: es, t => e.start.silent = s.silent ∧ Leads e.finish es t

theorem Chain.leads (h : Chain s es t) : Leads s es t := by
  induction es generalizing s with
  | nil => exact congrArg Store.silent h
  | cons e es ih => exact ⟨congrArg Store.silent h.1, ih h.2⟩

theorem Leads.of_silent (hs : s.silent = u.silent) (h : Leads s es t) : Leads u es t := by
  cases es with
  | nil => exact h.trans hs
  | cons e es => exact ⟨h.1.trans hs, h.2⟩

theorem Leads.append (h : Leads s es t) (h' : Leads t fs u) : Leads s (es ++ fs) u := by
  induction es generalizing s with
  | nil => exact h'.of_silent h
  | cons e es ih => exact ⟨h.1, ih h.2⟩

theorem Leads.to_silent (h : Leads s es t) (hu : u.silent = t.silent) : Leads s es u := by
  have happend : Leads s (es ++ []) u := h.append hu
  rwa [List.append_nil] at happend

theorem firstError_append (es fs : List (Execution c)) :
    firstError (es ++ fs) = (firstError es).or (firstError fs) :=
  List.findSome?_append

theorem verdict_of_firstError {α : Type} {x : Error} (h : firstError es = some x) (a : α) :
    verdict es a = .error x := by
  rw [verdict, h]

theorem any_halts_of_firstError {x : Error} (ends : Resolved → Bool) (h : firstError es = some x) :
    es.any (halts ends) = true := by
  obtain ⟨e, he, hx⟩ := List.exists_of_findSome?_eq_some h
  refine List.any_eq_true.mpr ⟨e, he, ?_⟩
  unfold error? at hx
  unfold halts
  cases hr : e.result with
  | ok r => simp [hr] at hx
  | error y => rfl

theorem any_halts_of_no_error (h : firstError es = none) :
    es.any (halts Resolved.isHandled) = es.any handles := by
  have heach : ∀ e ∈ es, halts Resolved.isHandled e = e.handles := by
    intro e he
    have hnone := List.findSome?_eq_none_iff.mp h e he
    unfold error? at hnone
    unfold halts handles
    cases hr : e.result with
    | ok r => rfl
    | error x => simp [hr] at hnone
  rw [Bool.eq_iff_iff, List.any_eq_true, List.any_eq_true]
  constructor
  · rintro ⟨e, he, hhalts⟩
    exact ⟨e, he, (heach e he).symm.trans hhalts⟩
  · rintro ⟨e, he, hhandles⟩
    exact ⟨e, he, (heach e he).trans hhandles⟩

theorem verdict_of_no_error {α : Type} (h : firstError es = none) (a : α) :
    verdict es a = .ok a := by
  rw [verdict, h]

end Execution

/-- The store after an execution in a buffer of its own that is opened in some store. -/
def Execution.setAside {c : Command} (s : Store) (e : Execution c) : Store :=
  { e.finish with lines := s.lines, outerLines := s.outerLines }

open Execution

/-- The executions of a dispatch by their part in it. -/
structure Course (c : Command) where
  before : List (Execution c)
  main : List (Execution c)
  after : List (Execution c)
  endOfTurn : List (Execution c)

namespace Course

variable {c : Command}

def phases (course : Course c) : List (Execution c) :=
  course.before ++ course.main ++ course.after

def all (course : Course c) : List (Execution c) :=
  course.phases ++ course.endOfTurn

/-- The phase that handled the command. -/
def phase (course : Course c) : Option Phase :=
  if course.before.any handles then some .before
  else if course.main.any handles then
    if course.after.any handles then some .after else some .main
  else none

/-- What is written in the phases, where the lines of after actions take the place of those of the main
action if one of them handled the command. -/
def phaseOutput (course : Course c) : List String :=
  if course.after.any handles then writtenBy course.before ++ writtenBy course.after
  else writtenBy course.before ++ writtenBy course.main ++ writtenBy course.after

def output (course : Course c) : List String :=
  course.phaseOutput ++ writtenBy course.endOfTurn

end Course

namespace Registry

variable {c : Command}

/-- The best main action of some owners. -/
def mainBody (owners : List String) (c : Command) (r : Registry) : Option Body :=
  (r.bestMain owners c).map fun found => .action found.1 found.2

end Registry

/-- The verb of the command takes no turn. -/
def Command.isInstant (c : Command) : Bool :=
  c.verb?.any Verb.isInstant

namespace Course

variable {c : Command}

/-- The protocol of the phases. Before actions are executed owner by owner up to one that fails or
handles the command. Only if there is none the main action is executed, and only if that handles the
command the after actions are. -/
structure FollowsPhases (course : Course c) (r : Registry) (owners : List String) : Prop where
  before : Sweeps (halts Resolved.isHandled) (r.bestOfEach owners .before c) course.before
  main : course.main.map body =
    if course.before.any (halts Resolved.isHandled) then [] else (r.mainBody owners c).toList
  after : if course.main.any handles then Sweeps fails (r.bestOfEach owners .after c) course.after
    else course.after = []

/-- A run of the phases from `s` to `t` is what the executions of the course make it. -/
structure IsRun (course : Course c) (r : Registry) (owners : List String) (s : Store)
    (run : Except Error (Option Phase) × Store) : Prop where
  follows : course.FollowsPhases r owners
  noMore : course.endOfTurn = []
  leads : Leads s course.phases run.2
  result : run.1 = verdict course.phases course.phase
  lines : firstError course.phases = none → run.2.lines = s.lines ++ course.phaseOutput

/-- The protocol of a dispatch. The rules of the end of the turn are executed only if nothing failed
before, the command was handled and its verb takes a turn. -/
structure Follows (course : Course c) (r : Registry) (owners : List String) : Prop
    extends course.FollowsPhases r owners where
  endOfTurn : if firstError course.phases = none ∧ course.phase.isSome ∧ c.isInstant = false then
      Sweeps fails r.endOfTurn course.endOfTurn
    else course.endOfTurn = []

end Course

namespace Registry

variable {c : Command}

theorem runBefore_executes (owners : List String) (c : Command) (r : Registry) (s : Store) :
    ∃ (es : List (Execution c)) (t : Store),
      Sweeps (halts Resolved.isHandled) (r.bestOfEach owners .before c) es ∧ Chain s es t ∧
      Eval.runOn (r.runBefore owners c) s = (verdict es (es.any handles), t) := by
  rw [runBefore_eq_walk]
  exact walk_executes c _ _ s

theorem runAfter_executes (owners : List String) (c : Command) (r : Registry) (s : Store) :
    ∃ (es : List (Execution c)) (t : Store),
      Sweeps fails (r.bestOfEach owners .after c) es ∧ Chain s es t ∧
      Eval.runOn (r.runAfter owners c) s = (verdict es (es.any handles), t) := by
  rw [runAfter_eq_walk, ← halts_never]
  exact walk_executes c _ _ s

theorem runEveryTurn_executes (c : Command) (r : Registry) (s : Store) :
    ∃ (es : List (Execution c)) (t : Store),
      Sweeps fails r.endOfTurn es ∧ Chain s es t ∧
      Eval.runOn r.runEveryTurn s = (verdict es (), t) := by
  rw [runEveryTurn_eq_walk c, ← halts_never]
  obtain ⟨es, t, hsweeps, hchain, hrun⟩ := walk_executes c (fun _ => false) r.endOfTurn s
  refine ⟨es, t, hsweeps, hchain, ?_⟩
  rw [Eval.runOn_map, hrun, map_verdict]

theorem balanced_of_chain {es : List (Execution c)} {s t : Store} (h : Chain s es t) :
    Store.Balanced s t := by
  induction es generalizing s with
  | nil =>
    cases h
    exact .refl _
  | cons e es ih =>
    obtain ⟨rfl, h⟩ := h
    exact e.balanced.trans (ih h)

/-- What comes after a main action that handled the command and wrote some lines. -/
def followUp (owners : List String) (mainLines : List String) (c : Command) (r : Registry) :
    Eval (Option Phase) := do
  let (result, afterLines) ← Eval.buffered (r.runAfter owners c)
  if ← Eval.ofExcept result then
    Eval.write afterLines
    return some .after
  else
    Eval.write (mainLines ++ afterLines)
    return some .main

theorem runMain_eq_followUp (owners : List String) (owner : String) (a : Action) (c : Command)
    (r : Registry) :
    r.runMain owners owner a c = do
      let (result, mainLines) ← Eval.buffered (a.perform owner c)
      if (← Eval.ofExcept result).isHandled then r.followUp owners mainLines c
      else
        Eval.write mainLines
        return none :=
  rfl

theorem followUp_executes (owners : List String) (mainLines : List String) (c : Command)
    (r : Registry) (s : Store) :
    ∃ (es : List (Execution c)) (t : Store),
      Sweeps fails (r.bestOfEach owners .after c) es ∧ Leads s es t ∧
      Eval.runOn (r.followUp owners mainLines c) s =
        (verdict es (some (if es.any handles then .after else .main)), t) ∧
      (firstError es = none →
        t.lines = s.lines ++ if es.any handles then writtenBy es else mainLines ++ writtenBy es) := by
  obtain ⟨es, t, hsweeps, hchain, hafter⟩ := r.runAfter_executes owners c s.pushBuffer
  let u : Store := { t with lines := s.lines, outerLines := s.outerLines }
  have hbuffered : Eval.runOn (Eval.buffered (r.runAfter owners c)) s =
      (.ok (verdict es (es.any handles), writtenBy es), u) := by
    have hlines : t.lines = writtenBy es := hchain.lines
    have hbalanced := balanced_of_chain hchain
    rw [Store.runOn_buffered_of_balanced (by rwa [hafter]), hafter, hlines]
  have hsilent : u.silent = t.silent := rfl
  have hleads : Leads s es u := (hchain.leads.of_silent s.silent_pushBuffer).to_silent hsilent
  let lines := fun handled : Bool => if handled then writtenBy es else mainLines ++ writtenBy es
  have hrun : Eval.runOn (r.followUp owners mainLines c) s =
      match verdict es (es.any handles) with
      | .error x => (.error x, u)
      | .ok handled =>
        (.ok (some (if handled then .after else .main)), u.writeLines (lines handled)) := by
    rw [followUp, Eval.runOn_bind, hbuffered]
    rcases verdict es (es.any handles) with x | (_ | _) <;> rfl
  cases herror : firstError es with
  | some x =>
    rw [verdict_of_firstError herror] at hrun
    refine ⟨es, u, hsweeps, hleads, ?_, ?_⟩
    · rw [hrun, verdict_of_firstError herror]
    · intro hnone
      rw [herror] at hnone
      cases hnone
  | none =>
    rw [verdict_of_no_error herror] at hrun
    refine ⟨es, _, hsweeps, hleads.to_silent (Store.silent_writeLines (lines (es.any handles)) u), ?_,
      fun _ => rfl⟩
    rw [hrun, verdict_of_no_error herror]

theorem runOn_runMain (owners : List String) (owner : String) (a : Action) (c : Command)
    (r : Registry) (s : Store) :
    let e : Execution c := ⟨.action owner a, s.pushBuffer⟩
    Eval.runOn (r.runMain owners owner a c) s =
      match e.result with
      | .error x => (.error x, e.setAside s)
      | .ok result =>
        if result.isHandled then Eval.runOn (r.followUp owners e.written c) (e.setAside s)
        else (.ok none, (e.setAside s).writeLines e.written) := by
  intro e
  have hbuffered : Eval.runOn (Eval.buffered (a.perform owner c)) s =
      (.ok (e.result, e.written), e.setAside s) := by
    have hbalanced : Store.Balanced s.pushBuffer e.finish := e.balanced
    have hlines : e.finish.lines = e.written := e.lines_finish
    rw [← hlines]
    exact Store.runOn_buffered_of_balanced hbalanced
  rw [runMain_eq_followUp, Eval.runOn_bind, hbuffered]
  cases e.result with
  | error x => rfl
  | ok result =>
    dsimp only
    cases hresult : result.isHandled with
    | true => simp [Eval.ofExcept, hresult]
    | false =>
      simp [Eval.ofExcept, hresult]
      rfl

theorem runMain_executes (owners : List String) (owner : String) (a : Action) (c : Command)
    (r : Registry) (s : Store) :
    let e : Execution c := ⟨.action owner a, s.pushBuffer⟩
    ∃ (es : List (Execution c)) (t : Store),
      (if e.handles then Sweeps fails (r.bestOfEach owners .after c) es else es = []) ∧
      Leads s (e :: es) t ∧
      Eval.runOn (r.runMain owners owner a c) s =
        (verdict (e :: es)
          (if e.handles then some (if es.any handles then .after else .main) else none), t) ∧
      (firstError (e :: es) = none →
        t.lines = s.lines ++ if es.any handles then writtenBy es else writtenBy (e :: es)) := by
  intro e
  have hrun : Eval.runOn (r.runMain owners owner a c) s = _ := r.runOn_runMain owners owner a c s
  cases hr : e.result with
  | error x =>
    rw [hr] at hrun
    refine ⟨[], e.setAside s, ?_, ⟨rfl, rfl⟩, ?_, ?_⟩
    · rw [handles_of_error hr]
      rfl
    · rw [hrun, verdict_cons_of_error hr]
    · intro hnone
      rw [firstError, List.findSome?_cons, error?_of_error hr] at hnone
      cases hnone
  | ok result =>
    have hhandles := handles_of_ok hr
    rw [hr] at hrun
    dsimp only at hrun
    cases hhandled : result.isHandled with
    | false =>
      rw [hhandled] at hhandles hrun
      refine ⟨[], (e.setAside s).writeLines e.written, ?_, ⟨rfl, rfl⟩, ?_, ?_⟩
      · rw [hhandles]
        rfl
      · rw [verdict_cons_of_ok hr, hhandles]
        exact hrun
      · intro _
        simp [Store.writeLines, setAside, writtenBy]
    | true =>
      rw [hhandled] at hhandles hrun
      obtain ⟨es, t, hsweeps, hleads, hfollow, hlines⟩ :=
        r.followUp_executes owners e.written c (e.setAside s)
      have hsilent : (e.setAside s).silent = e.finish.silent := rfl
      refine ⟨es, t, ?_, ⟨rfl, hleads.of_silent hsilent⟩, ?_, ?_⟩
      · rw [hhandles]
        exact hsweeps
      · rw [verdict_cons_of_ok hr, hhandles]
        exact hrun.trans hfollow
      · intro hnone
        rw [firstError, List.findSome?_cons, error?_of_ok hr] at hnone
        exact hlines hnone

theorem isRun_before {es : List (Execution c)} {r : Registry} {owners : List String} {s t : Store}
    (hsweeps : Sweeps (halts Resolved.isHandled) (r.bestOfEach owners .before c) es)
    (hchain : Chain s es t)
    (hmain : es.any (halts Resolved.isHandled) = true ∨ r.mainBody owners c = none) :
    Course.IsRun ⟨es, [], [], []⟩ r owners s
      (verdict es (if es.any handles then some .before else none), t) := by
  have hphases : Course.phases ⟨es, [], [], []⟩ = es := by simp [Course.phases]
  refine ⟨⟨hsweeps, ?_, rfl⟩, rfl, ?_, ?_, ?_⟩
  · rcases hmain with h | h <;> simp [h]
  · rw [hphases]
    exact hchain.leads
  · rw [hphases]
    rfl
  · intro _
    simp [Course.phaseOutput, hchain.lines, writtenBy]

/-- The course of a run that goes on to a main action. -/
theorem isRun_main {es : List (Execution c)} {r : Registry} {owners : List String} {s u : Store}
    {owner : String} {a : Action}
    (hsweeps : Sweeps (halts Resolved.isHandled) (r.bestOfEach owners .before c) es)
    (hchain : Chain s es u) (herror : firstError es = none) (hhandled : es.any handles = false)
    (hbest : r.bestMain owners c = some (owner, a)) :
    ∃ course : Course c, course.IsRun r owners s (Eval.runOn (r.runMain owners owner a c) u) := by
  let e : Execution c := ⟨.action owner a, u.pushBuffer⟩
  obtain ⟨fs, t, hafter, hleads, hrun, hlines⟩ := r.runMain_executes owners owner a c u
  let course : Course c := ⟨es, [e], fs, []⟩
  have hmain : r.mainBody owners c = some (.action owner a) := by
    rw [mainBody, hbest, Option.map_some]
  have hphases : course.phases = es ++ (e :: fs) := by simp [course, Course.phases]
  have herrors : firstError course.phases = firstError (e :: fs) := by
    rw [hphases, firstError_append, herror, Option.none_or]
  have hphase : course.phase =
      if e.handles then some (if fs.any handles then .after else .main) else none := by
    cases he : e.handles <;> cases hfs : fs.any handles <;>
      simp [course, Course.phase, hhandled, he, hfs]
  have houtput : writtenBy es ++ (if fs.any handles then writtenBy fs else writtenBy (e :: fs)) =
      course.phaseOutput := by
    cases hfs : fs.any handles <;> simp [course, Course.phaseOutput, writtenBy, hfs]
  refine ⟨course, ⟨hsweeps, ?_, ?_⟩, rfl, ?_, ?_, ?_⟩
  · rw [any_halts_of_no_error herror, hhandled, hmain]
    rfl
  · simpa [course] using hafter
  · rw [hrun, hphases]
    exact hchain.leads.append hleads
  · have hverdict : verdict course.phases course.phase = verdict (e :: fs) course.phase := by
      rw [verdict, verdict, herrors]
    rw [hrun, hverdict, hphase]
  · intro hnone
    rw [herrors] at hnone
    rw [hrun, hlines hnone, hchain.lines, List.append_assoc, houtput]

theorem runPhases_executes (owners : List String) (c : Command) (r : Registry) (s : Store) :
    ∃ course : Course c, course.IsRun r owners s (Eval.runOn (r.runPhases owners c) s) := by
  obtain ⟨es, u, hsweeps, hchain, hbefore⟩ := r.runBefore_executes owners c s
  rw [runPhases, Eval.runOn_bind, hbefore]
  cases herror : firstError es with
  | some x =>
    have hrun := isRun_before hsweeps hchain (.inl (any_halts_of_firstError _ herror))
    rw [verdict_of_firstError herror] at hrun ⊢
    exact ⟨_, hrun⟩
  | none =>
    rw [verdict_of_no_error herror]
    cases hhandled : es.any handles with
    | true =>
      have hhalts := (any_halts_of_no_error herror).trans hhandled
      have hrun := isRun_before hsweeps hchain (.inl hhalts)
      rw [verdict_of_no_error herror, hhandled] at hrun
      exact ⟨_, hrun⟩
    | false =>
      cases hbest : r.bestMain owners c with
      | none =>
        have hmain : r.mainBody owners c = none := by rw [mainBody, hbest, Option.map_none]
        have hrun := isRun_before hsweeps hchain (.inr hmain)
        rw [verdict_of_no_error herror, hhandled] at hrun
        exact ⟨_, hrun⟩
      | some found => exact isRun_main hsweeps hchain herror hhandled hbest

/-- What a dispatch does with its output in a buffer. -/
def turn (owners : List String) (c : Command) (r : Registry) : Eval (Option Phase) := do
  let phase ← r.runPhases owners c
  if phase.isSome && !c.isInstant then r.runEveryTurn
  return phase

theorem dispatch_eq_turn (c : Command) (around : Surroundings) (r : Registry) :
    r.dispatch c around = do
      let (result, output) ← Eval.buffered (r.turn (around.owners c) c)
      return ⟨← Eval.ofExcept result, c.isInstant, output⟩ :=
  rfl

theorem balanced_turn (owners : List String) (c : Command) (r : Registry) :
    Eval.Respects Store.Balanced (r.turn owners c) := by
  have hR := Store.balanced_invariant
  refine hR.bind (hR.runPhases Store.balanced_buffered owners c r) fun phase => ?_
  dsimp only
  split
  · exact hR.bind (hR.runEveryTurn r) fun _ => hR.pure phase
  · exact hR.pure phase

theorem runOn_turn (owners : List String) (c : Command) (r : Registry) (s : Store) :
    Eval.runOn (r.turn owners c) s =
      match Eval.runOn (r.runPhases owners c) s with
      | (.ok phase, u) =>
        if phase.isSome && !c.isInstant then
          ((Eval.runOn r.runEveryTurn u).1.map fun _ => phase, (Eval.runOn r.runEveryTurn u).2)
        else (.ok phase, u)
      | (.error x, u) => (.error x, u) := by
  rw [turn, Eval.runOn_bind]
  rcases Eval.runOn (r.runPhases owners c) s with ⟨x | phase, u⟩
  · rfl
  · dsimp only
    split
    · rw [Eval.runOn_bind]
      rcases Eval.runOn r.runEveryTurn u with ⟨x | _, t⟩ <;> rfl
    · rfl

theorem turn_executes (owners : List String) (c : Command) (r : Registry) (s : Store) :
    ∃ (course : Course c) (t : Store),
      course.Follows r owners ∧ Leads s course.all t ∧
      Eval.runOn (r.turn owners c) s = (verdict course.all course.phase, t) ∧
      (firstError course.all = none → t.lines = s.lines ++ course.output) := by
  obtain ⟨course, hcourse⟩ := r.runPhases_executes owners c s
  rw [runOn_turn]
  generalize Eval.runOn (r.runPhases owners c) s = run at hcourse ⊢
  obtain ⟨result, u⟩ := run
  obtain ⟨hfollows, hnoMore, hleads, hresult, hlines⟩ := hcourse
  dsimp only at hleads hresult hlines
  by_cases hends : firstError course.phases = none ∧ course.phase.isSome ∧ c.isInstant = false
  · obtain ⟨herror, hphase, hinstant⟩ := hends
    obtain ⟨es, t, hsweeps, hchain, hturn⟩ := r.runEveryTurn_executes c u
    let whole : Course c := { course with endOfTurn := es }
    have herrors : firstError whole.all = firstError es := by
      rw [Course.all, firstError_append, show whole.phases = course.phases from rfl, herror,
        Option.none_or]
    have hphases : whole.FollowsPhases r owners :=
      ⟨hfollows.before, hfollows.main, hfollows.after⟩
    refine ⟨whole, t, ⟨hphases, ?_⟩, hleads.append hchain.leads, ?_, ?_⟩
    · rw [if_pos ⟨herror, hphase, hinstant⟩]
      exact hsweeps
    · rw [verdict_of_no_error herror] at hresult
      subst hresult
      simp only [hphase, hinstant, Bool.not_false, Bool.and_self, if_true, hturn, map_verdict]
      rw [verdict, verdict, herrors]
      rfl
    · intro hnone
      rw [hchain.lines, hlines herror, List.append_assoc]
      rfl
  · have hall : course.all = course.phases := by rw [Course.all, hnoMore, List.append_nil]
    refine ⟨course, u, ⟨hfollows, ?_⟩, ?_, ?_, ?_⟩
    · rw [if_neg hends]
      exact hnoMore
    · rwa [hall]
    · rw [hall, hresult]
      cases herror : firstError course.phases with
      | some x =>
        rw [verdict_of_firstError herror]
      | none =>
        rw [verdict_of_no_error herror]
        have hidle : (course.phase.isSome && !c.isInstant) = false := by
          cases hphase : course.phase.isSome <;> cases hinstant : c.isInstant <;> simp_all
        simp [hidle]
    · intro hnone
      rw [hall] at hnone
      rw [hlines hnone, Course.output, hnoMore]
      simp [writtenBy]

/-- A dispatch has the course of its turn. Its result is the phase that handled the command, with what
the course writes; the output buffers are afterwards what they were before. -/
theorem dispatch_executes (c : Command) (around : Surroundings) (r : Registry) (s : Store) :
    ∃ (course : Course c) (t : Store),
      course.Follows r (around.owners c) ∧ Leads s course.all t ∧
      Eval.runOn (r.dispatch c around) s =
        (verdict course.all ⟨course.phase, c.isInstant, course.output⟩, t) ∧
      t.lines = s.lines ∧ t.outerLines = s.outerLines := by
  obtain ⟨course, u, hfollows, hleads, hturn, hlines⟩ :=
    r.turn_executes (around.owners c) c s.pushBuffer
  let t : Store := { u with lines := s.lines, outerLines := s.outerLines }
  have hbalanced := balanced_turn (around.owners c) c r s.pushBuffer
  have hbuffered := Store.runOn_buffered_of_balanced hbalanced
  rw [hturn] at hbuffered
  have hsilent : t.silent = u.silent := rfl
  refine ⟨course, t, hfollows, (hleads.of_silent s.silent_pushBuffer).to_silent hsilent, ?_, rfl, rfl⟩
  rw [dispatch_eq_turn, Eval.runOn_bind, hbuffered]
  cases herror : firstError course.all with
  | some x =>
    rw [verdict_of_firstError herror, verdict_of_firstError herror]
    rfl
  | none =>
    have houtput : u.lines = course.output := by
      rw [hlines herror]
      rfl
    rw [verdict_of_no_error herror, verdict_of_no_error herror, houtput]
    rfl

end Registry

end TextAdventure
