import TextAdventure.Dispatch
import TextAdventure.Proofs.Eval.Balance

/-! # Executions

A phase goes through the bodies of its owners in order and executes them one after the other, up to one
that ends the phase. What it does to the store, what it writes and how it ends is what its executions
do, write and end with.
-/
namespace TextAdventure

/-- What a dispatch executes: an action for its owner, or a rule of the end of the turn. -/
inductive Body where
  | action (owner : String) (a : Action)
  | endOfTurn (path : String) (rule : Rule)

def Body.run (c : Command) : Body → Eval Resolved
  | action owner a => a.perform owner c
  | endOfTurn path rule => Eval.mapError (·.inAction "every-turn" path) rule.resolve

/-- A body that is executed for a command, with the store that it is executed in. -/
structure Execution (c : Command) where
  body : Body
  start : Store

namespace Execution

variable {c : Command}

def result (e : Execution c) : Except Error Resolved :=
  (Eval.runOn (e.body.run c) e.start).1

def finish (e : Execution c) : Store :=
  (Eval.runOn (e.body.run c) e.start).2

def error? (e : Execution c) : Option Error :=
  match e.result with
  | .ok _ => none
  | .error x => some x

def fails (e : Execution c) : Bool :=
  e.error?.isSome

def handles (e : Execution c) : Bool :=
  match e.result with
  | .ok r => r.isHandled
  | .error _ => false

/-- The lines that are there at the end and were not at the start. -/
def written (e : Execution c) : List String :=
  e.finish.lines.drop e.start.lines.length

theorem balanced (e : Execution c) : Store.Balanced e.start e.finish := by
  unfold finish
  cases e.body with
  | action owner a => exact Store.balanced_invariant.perform owner c a e.start
  | endOfTurn path rule =>
    exact Eval.Invariant.mapError _ (Store.balanced_invariant.resolveRule rule) e.start

theorem lines_finish (e : Execution c) : e.finish.lines = e.start.lines ++ e.written := by
  obtain ⟨lines, hlines⟩ := e.balanced.lines
  rw [written, hlines, List.drop_left]

section Result

variable {e : Execution c} {r : Resolved} {x : Error}

theorem error?_of_ok (h : e.result = .ok r) : e.error? = none := by
  rw [error?, h]

theorem error?_of_error (h : e.result = .error x) : e.error? = some x := by
  rw [error?, h]

theorem fails_of_ok (h : e.result = .ok r) : e.fails = false := by
  rw [fails, error?_of_ok h, Option.isSome_none]

theorem handles_of_ok (h : e.result = .ok r) : e.handles = r.isHandled := by
  rw [handles, h]

theorem handles_of_error (h : e.result = .error x) : e.handles = false := by
  rw [handles, h]

end Result

variable {es fs : List (Execution c)} {e : Execution c} {bodies : List Body} {s t u : Store}
  {stops : Execution c → Bool}

def firstError (es : List (Execution c)) : Option Error :=
  es.findSome? error?

/-- The first error of some executions, or a result if there is none. -/
def verdict {α : Type} (es : List (Execution c)) (a : α) : Except Error α :=
  match firstError es with
  | some x => .error x
  | none => .ok a

def writtenBy (es : List (Execution c)) : List String :=
  es.flatMap written

/-- The executions follow one another directly, from one store to another. -/
def Chain : Store → List (Execution c) → Store → Prop
  | s, [], t => t = s
  | s, e :: es, t => e.start = s ∧ Chain e.finish es t

theorem Chain.lines (h : Chain s es t) : t.lines = s.lines ++ writtenBy es := by
  induction es generalizing s with
  | nil =>
    cases h
    simp [writtenBy]
  | cons e es ih =>
    obtain ⟨rfl, h⟩ := h
    rw [ih h, e.lines_finish, List.append_assoc]
    rfl

/-- Executions of some bodies in order, up to the first that stops there, or of all if none does. -/
structure Sweeps (stops : Execution c → Bool) (bodies : List Body) (es : List (Execution c)) :
    Prop where
  order : es.map body <+: bodies
  goesOn : ∀ e ∈ es.dropLast, stops e = false
  ends : (∃ e ∈ es.getLast?, stops e = true) ∨ es.map body = bodies

theorem sweeps_nil (stops : Execution c → Bool) : Sweeps stops [] [] where
  order := List.prefix_rfl
  goesOn _ hm := by cases hm
  ends := .inr rfl

theorem Sweeps.stop (h : stops e = true) (bodies : List Body) :
    Sweeps stops (e.body :: bodies) [e] where
  order := by simp
  goesOn _ hm := by cases hm
  ends := .inl ⟨e, rfl, h⟩

theorem Sweeps.goOn (h : stops e = false) (hs : Sweeps stops bodies es) :
    Sweeps stops (e.body :: bodies) (e :: es) where
  order := by simpa using hs.order
  goesOn f hf := by
    cases es with
    | nil => cases hf
    | cons e' es =>
      rcases List.mem_cons.mp hf with rfl | hf
      · exact h
      · exact hs.goesOn f hf
  ends := by
    rcases hs.ends with ⟨f, hf, hstop⟩ | hall
    · cases es with
      | nil => cases hf
      | cons e' es => exact .inl ⟨f, hf, hstop⟩
    · exact .inr (by rw [List.map_cons, hall])

theorem verdict_cons_of_ok {α : Type} {r : Resolved} (h : e.result = .ok r) (a : α) :
    verdict (e :: es) a = verdict es a := by
  rw [verdict, verdict, firstError, firstError, List.findSome?_cons, error?_of_ok h]

theorem verdict_cons_of_error {α : Type} {x : Error} (h : e.result = .error x) (a : α) :
    verdict (e :: es) a = .error x := by
  rw [verdict, firstError, List.findSome?_cons, error?_of_error h]

theorem map_verdict {α β : Type} (f : α → β) (es : List (Execution c)) (a : α) :
    (verdict es a).map f = verdict es (f a) := by
  unfold verdict
  cases firstError es <;> rfl

/-- Executes bodies in order up to the first that fails or ends the walk, and tells whether any handled
the command. -/
def walk (c : Command) (ends : Resolved → Bool) : List Body → Eval Bool
  | [] => return false
  | body :: bodies => do
    let r ← body.run c
    if ends r then return r.isHandled
    else return r.isHandled || (← walk c ends bodies)

/-- Whether an execution is the last of a walk. -/
def halts (ends : Resolved → Bool) (e : Execution c) : Bool :=
  match e.result with
  | .ok r => ends r
  | .error _ => true

theorem halts_never : halts (fun _ => false) = fails (c := c) := by
  funext e
  unfold halts fails error?
  cases e.result <;> rfl

theorem walk_executes (c : Command) (ends : Resolved → Bool) (bodies : List Body) (s : Store) :
    ∃ (es : List (Execution c)) (t : Store), Sweeps (halts ends) bodies es ∧ Chain s es t ∧
      Eval.runOn (walk c ends bodies) s = (verdict es (es.any handles), t) := by
  induction bodies generalizing s with
  | nil => exact ⟨[], s, sweeps_nil _, rfl, rfl⟩
  | cons body bodies ih =>
    let e : Execution c := ⟨body, s⟩
    have hrun : Eval.runOn (body.run c) s = (e.result, e.finish) := rfl
    rw [walk, Eval.runOn_bind, hrun]
    cases hr : e.result with
    | error x =>
      have hhalts : halts ends e = true := by rw [halts, hr]
      refine ⟨[e], e.finish, .stop hhalts bodies, ⟨rfl, rfl⟩, ?_⟩
      rw [verdict_cons_of_error hr]
    | ok r =>
      have hhalts : halts ends e = ends r := by rw [halts, hr]
      have hhandles := handles_of_ok hr
      cases hends : ends r with
      | true =>
        refine ⟨[e], e.finish, .stop (hhalts.trans hends) bodies, ⟨rfl, rfl⟩, ?_⟩
        rw [verdict_cons_of_ok hr]
        simp [hends, hhandles, verdict, firstError]
      | false =>
        obtain ⟨es, t, hsweeps, hchain, hwalk⟩ := ih e.finish
        refine ⟨e :: es, t, hsweeps.goOn (hhalts.trans hends), ⟨rfl, hchain⟩, ?_⟩
        rw [verdict_cons_of_ok hr, List.any_cons, hhandles, ← map_verdict]
        simp [hends, Eval.runOn_map, hwalk]

end Execution

namespace Registry

variable {c : Command} {r : Registry} {s : Store}

open Execution

/-- The best actions of some owners for a phase, in the order of the owners. -/
def bestOfEach (owners : List String) (phase : Phase) (c : Command) (r : Registry) : List Body :=
  owners.filterMap fun owner => (r.best owner phase c).map fun found => .action owner found.2

theorem runBefore_eq_walk (owners : List String) (c : Command) (r : Registry) :
    r.runBefore owners c = walk c Resolved.isHandled (r.bestOfEach owners .before c) := by
  induction owners with
  | nil => rfl
  | cons owner owners ih =>
    rw [runBefore] at ih ⊢
    rw [List.anyM, ih]
    cases hbest : r.best owner .before c with
    | none => simp [performBest, bestOfEach, hbest]
    | some found =>
      simp only [performBest, bestOfEach, hbest, walk, Body.run, List.filterMap_cons, Option.map_some,
        map_eq_pure_bind, bind_assoc, pure_bind]
      apply bind_congr
      intro result
      cases result.isHandled with
      | true => rfl
      | false => simp

theorem runAfter_eq_walk (owners : List String) (c : Command) (r : Registry) :
    r.runAfter owners c = walk c (fun _ => false) (r.bestOfEach owners .after c) := by
  induction owners with
  | nil => rfl
  | cons owner owners ih =>
    rw [runAfter] at ih ⊢
    rw [List.mapM_cons]
    cases hbest : r.best owner .after c with
    | none =>
      simp only [performBest, bestOfEach, hbest, List.filterMap_cons, Option.map_none] at ih ⊢
      simpa using ih
    | some found =>
      simp only [performBest, bestOfEach, hbest, walk, Body.run, List.filterMap_cons, Option.map_some,
        map_eq_pure_bind, bind_assoc, pure_bind] at ih ⊢
      apply bind_congr
      intro result
      simp [← ih]

/-- The rules of the end of the turn, in the order in which they were added. -/
def endOfTurn (r : Registry) : List Body :=
  r.everyTurn.map fun entry => .endOfTurn entry.1 entry.2

theorem mapError_discard {α : Type} (f : Error → Error) (m : Eval α) :
    Eval.mapError f (discard m) = (fun _ => ()) <$> Eval.mapError f m := by
  funext s
  change Eval.runOn (Eval.mapError f ((fun _ => ()) <$> m)) s =
    Eval.runOn ((fun _ => ()) <$> Eval.mapError f m) s
  rw [Eval.runOn_mapError, Eval.runOn_map, Eval.runOn_map, Eval.runOn_mapError]
  rcases Eval.runOn m s with ⟨x | a, t⟩ <;> rfl

theorem runEveryTurn_eq_walk (c : Command) (r : Registry) :
    r.runEveryTurn = (fun _ => ()) <$> walk c (fun _ => false) r.endOfTurn := by
  rw [runEveryTurn, endOfTurn]
  induction r.everyTurn with
  | nil => rfl
  | cons entry entries ih =>
    obtain ⟨path, rule⟩ := entry
    rw [List.forM, ih]
    simp only [mapError_discard]
    simp [walk, Body.run]

end Registry

end TextAdventure
