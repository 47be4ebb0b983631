import TextAdventure.Proofs.Scene.Enumeration

/-! # Looking a command up by its words

The walk for typed words leaves every branch whose word was not typed, and tries the branches that are
left in the order of the enumeration. It therefore finds the first enumerated command that is spelled by
the words, and nothing if there is none.
-/
namespace TextAdventure

open Eval
open Grammar (Node Slot)

namespace Scene

variable {scene : Scene} {s : Store}

/-- Whether a command is spelled by the words. -/
def isSpelled (words : List String) (c : Command) : Bool :=
  c.words = words

theorem find?_isSpelled_eq_none {words : List String} {found : List Command}
    (h : ∀ c ∈ found, c.words ≠ words) : found.find? (isSpelled words) = none :=
  List.find?_eq_none.mpr fun c hc => by simp [isSpelled, h c hc]

theorem Branch.find?_eq_none {n : Node} {c next : Command} {found : List Command}
    {words : List String} (h : scene.Branch s n c next found) (hn : ¬ next.words <+: words) :
    found.find? (isSpelled words) = none := by
  refine find?_isSpelled_eq_none fun c' hc' he => hn ?_
  rw [← he]
  exact h.words_prefix hc'

theorem find?_rest_eq_none {children : List Node} {next : Command} {rest : List Command}
    {words : List String} (h : Yields (scene.Asked s) (scene.commandsBelow children next) rest)
    (hl : next.length = words.length) : rest.find? (isSpelled words) = none := by
  refine find?_isSpelled_eq_none fun c hc he => ?_
  obtain ⟨n, _, hd⟩ := derives_of_yields h hc
  obtain ⟨w, ws, hw⟩ := hd.words_eq
  have hlen := congrArg List.length (he.symm.trans hw)
  simp only [List.length_append, List.length_cons, Command.length_words] at hlen
  omega

mutual

theorem ConditionsKeep.exactAt (hs : scene.ConditionsKeep s) (words : List String) :
    ∀ (n : Node) {c : Command} {found : List Command}, c.words <+: words →
      Yields (scene.Asked s) (scene.commandsAt n c) found →
      Yields (scene.Asked s) (scene.exactAt words n c) (found.find? (isSpelled words))
  | .node slot complete children, c, found, hc, h => by
    obtain ⟨longer, founds, hl, rfl, hb⟩ := hs.split_commandsAt h
    rw [Scene.exactAt]
    refine hl.bind (yields_findSomeM? (hb.imp fun next found h => ?_))
    have hpre : ¬ next.words <+: words → found.find? (isSpelled words) = none :=
      fun hn => h.find?_eq_none hn
    obtain ⟨⟨p, rfl⟩, rest, hr, rfl⟩ := h
    by_cases ha : (c.push p).agrees words = true
    · have hn := (agrees_push_iff hc p).mp ha
      by_cases he : (c.push p).length = words.length
      · have hw : (c.push p).words = words := hn.eq_of_length (by rw [Command.length_words, he])
        have hrest := find?_rest_eq_none hr he
        simp only [ha, he, if_true]
        cases complete with
        | true => simpa [isSpelled, hw] using yields_pure (some (c.push p))
        | false => simpa [hrest] using yields_pure (none : Option Command)
      · have hw : (c.push p).words ≠ words := fun hw => he (by rw [← hw, Command.length_words])
        have hrest := hs.exactBelow words children hn hr
        simp only [ha, he, if_true, if_false]
        cases complete with
        | true =>
          rw [if_pos rfl, List.find?_cons_of_neg (by simpa [isSpelled] using hw)]
          exact hrest
        | false => exact hrest
    · rw [hpre fun hn => ha ((agrees_push_iff hc p).mpr hn)]
      simp only [ha]
      exact yields_pure none

theorem ConditionsKeep.exactBelow (hs : scene.ConditionsKeep s) (words : List String) :
    ∀ (ns : List Node) {c : Command} {found : List Command}, c.words <+: words →
      Yields (scene.Asked s) (scene.commandsBelow ns c) found →
      Yields (scene.Asked s) (scene.exactBelow words ns c) (found.find? (isSpelled words))
  | [], c, found, hc, h => by
    cases (h s .start).1
    exact yields_pure none
  | n :: ns, c, found, hc, h => by
    obtain ⟨first, rest, hf, hr, rfl⟩ := hs.split_commandsBelow h
    rw [Scene.exactBelow, List.find?_append]
    refine (hs.exactAt words n hc hf).bind ?_
    cases first.find? (isSpelled words) with
    | some found => exact yields_pure (some found)
    | none => exact hs.exactBelow words ns hc hr

end

theorem ConditionsKeep.exact (hs : scene.ConditionsKeep s) {found : List Command}
    (h : (runOn scene.commands s).1 = .ok found) (words : List String) :
    Yields (scene.Asked s) (scene.exact words) (found.find? fun c => c.words = words) :=
  hs.exactBelow words Grammar.roots List.nil_prefix (hs.commands.yields .start h)

/-- Words are looked up as the first enumerated command that they spell, if they spell one; no words
at all spell none. The lookup, like the enumeration, leaves the store as it was but for the next mark. -/
theorem exact_eq_find? (hs : scene.ConditionsKeep s) {found : List Command}
    (h : (runOn scene.commands s).1 = .ok found) (words : List String) :
    (∃ t, runOn (scene.exact words) s = (.ok (found.find? fun c => c.words = words), t) ∧
        scene.Asked s t ∧ s.UpToMarks t) ∧
      (runOn (scene.exact []) s).1 = .ok none ∧ s.UpToMarks (runOn scene.commands s).2 := by
  refine ⟨?_, ?_, ?_⟩
  · obtain ⟨t, ht, hrun⟩ := (hs.exact h words).exists_runOn .start
    exact ⟨t, hrun, ht, (hs t ht).1⟩
  · have hnone : found.find? (isSpelled []) = none := by
      refine find?_isSpelled_eq_none fun c hf he => ?_
      obtain ⟨n, _, hd⟩ := derives_of_yields (hs.commands.yields .start h) hf
      obtain ⟨w, ws, hw⟩ := hd.words_eq
      rw [he] at hw
      exact List.cons_ne_nil w _ (List.append_eq_nil_iff.mp hw.symm).2
    rw [← hnone]
    exact (hs.exact h [] s .start).1
  · obtain ⟨_, hr⟩ := hs.commands
    exact (hs _ (hr s .start).2).1

/-- Of a direction and an object with one name, the direction is found: it is enumerated first. The
object is found where a direction follows it, by a lookup that asks about its condition. -/
theorem exact_crossroads : crossroads.ConditionsKeep openNorth ∧
    (runOn crossroads.commands openNorth).1 = .ok crossroadsCommands ∧
    (∃ t, runOn (crossroads.exact ["go", "north"]) openNorth =
        (.ok (some ⟨[.verb go, .modifier "direction" "north"]⟩), t) ∧
      crossroads.Asked openNorth t ∧ openNorth.UpToMarks t) ∧
    (∃ t, runOn (crossroads.exact ["go", "north", "north"]) openNorth =
        (.ok (some ⟨[.verb go, .directObject "north", .modifier "direction" "north"]⟩), t) ∧
      crossroads.Asked openNorth t ∧ openNorth.UpToMarks t) :=
  ⟨conditionsKeep_crossroads, commands_crossroads,
    (exact_eq_find? conditionsKeep_crossroads commands_crossroads ["go", "north"]).1,
    (exact_eq_find? conditionsKeep_crossroads commands_crossroads ["go", "north", "north"]).1⟩

end Scene

end TextAdventure
