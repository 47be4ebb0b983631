import TextAdventure.Proofs.Scene.Enumeration

/-! # Completing typed words

The words offered after typed words are those that follow them in some enumerated command, in the order
of the enumeration and once each. A word is offered where its branch has a complete command, and then
all commands of the branch have that word in its place, so offering it once is the same as reading it
off each of them and dropping the repetitions.
-/
namespace TextAdventure

open Eval
open Grammar (Node Slot)

theorem eraseDups_filter (p : String → Bool) :
    ∀ as : List String, (as.filter p).eraseDups = as.eraseDups.filter p
  | [] => rfl
  | a :: as => by
    have hlen := List.length_filter_le (fun b => !b == a) as
    have ih := eraseDups_filter p (as.filter fun b => !b == a)
    rw [List.eraseDups_cons]
    cases hp : p a with
    | true =>
      rw [List.filter_cons_of_pos hp, List.filter_cons_of_pos hp, List.eraseDups_cons, ← ih,
        List.filter_comm]
    | false =>
      have hne : ∀ b, p b = true → (!b == a) = true := by
        intro b hb
        simp only [Bool.not_eq_true', beq_eq_false_iff_ne, ne_eq]
        rintro rfl
        rw [hb] at hp
        cases hp
      rw [List.filter_cons_of_neg (by simp [hp]), List.filter_cons_of_neg (by simp [hp]), ← ih,
        List.filter_filter]
      congr 1
      refine List.filter_congr fun b _ => ?_
      cases hb : p b with
      | true => simp [hne b hb]
      | false => rfl
  termination_by as => as.length

theorem firstOfEach_id_eq : ∀ as : List String, firstOfEach id as = as.eraseDups
  | [] => rfl
  | a :: as => by
    rw [firstOfEach, firstOfEach_id_eq as, List.eraseDups_cons, eraseDups_filter]
    refine congrArg (a :: ·) (List.filter_congr fun b _ => ?_)
    by_cases h : b = a <;> simp [h]

/-- Two lists of words that differ in repetitions only. -/
def SameWords (as bs : List String) : Prop :=
  as.eraseDups = bs.eraseDups

theorem SameWords.append {as as' bs bs' : List String} (ha : SameWords as as')
    (hb : SameWords bs bs') : SameWords (as ++ bs) (as' ++ bs') := by
  have hmem : ∀ b, b ∈ as ↔ b ∈ as' := by
    intro b
    rw [← List.mem_eraseDups, ha, List.mem_eraseDups]
  unfold SameWords at ha hb ⊢
  rw [List.eraseDups_append, List.eraseDups_append, ha]
  congr 1
  unfold List.removeAll
  rw [eraseDups_filter, eraseDups_filter, hb]
  refine List.filter_congr fun b _ => ?_
  simp [hmem b]

theorem SameWords.flatMap {α β : Type} {f : α → List String} {g : β → List String} {xs : List α}
    {ys : List β} (h : List.Forall₂ (fun x y => SameWords (f x) (g y)) xs ys) :
    SameWords (xs.flatMap f) (ys.flatMap g) := by
  induction h with
  | nil => rfl
  | cons hx _ ih =>
    rw [List.flatMap_cons, List.flatMap_cons]
    exact hx.append ih

theorem sameWords_replicate (w : String) (n : Nat) : SameWords [w] (List.replicate (n + 1) w) := by
  rw [SameWords, List.replicate_succ, List.eraseDups_cons, List.eraseDups_cons]
  simp

namespace Scene

variable {scene : Scene} {s : Store}

mutual

/-- A command that a node has just made can be completed if its branch has a complete command. -/
theorem ConditionsKeep.completes (hs : scene.ConditionsKeep s) :
    ∀ (n : Node) {c next : Command} {found : List Command}, scene.Branch s n c next found →
      Yields (scene.Asked s) (scene.completes n next) (!found.isEmpty)
  | .node slot complete children, c, next, found, h => by
    obtain ⟨_, rest, hr, rfl⟩ := h
    rw [Scene.completes]
    cases complete with
    | true => exact yields_pure true
    | false => exact hs.completesBelow children hr

theorem ConditionsKeep.completesBelow (hs : scene.ConditionsKeep s) :
    ∀ (ns : List Node) {c : Command} {found : List Command},
      Yields (scene.Asked s) (scene.commandsBelow ns c) found →
      Yields (scene.Asked s) (scene.completesBelow ns c) (!found.isEmpty)
  | [], c, found, h => by
    cases (h s .start).1
    exact yields_pure false
  | .node slot complete children :: ns, c, found, h => by
    obtain ⟨first, rest, hf, hr, rfl⟩ := hs.split_commandsBelow h
    obtain ⟨longer, founds, hl, rfl, hb⟩ := hs.split_commandsAt hf
    have hany := yields_anyM (List.forall₂_map_right_iff.mpr (hb.imp fun next found h =>
      hs.completes (.node slot complete children) h))
    have hsome : (founds.map fun found => !found.isEmpty).any id = !founds.flatten.isEmpty := by
      rw [Bool.eq_iff_iff]
      simp
    rw [hsome] at hany
    rw [Scene.completesBelow]
    refine hl.bind (hany.bind ?_)
    have hrest := hs.completesBelow ns hr
    cases founds.flatten with
    | nil => exact hrest
    | cons c cs => exact yields_pure true

end

/-- The word that each command has after the typed words, of those that begin with them and go on. -/
def wordsAfter (typed : List String) (found : List Command) : List String :=
  (found.filter fun c => typed.length < c.length ∧ c.words.take typed.length = typed).filterMap
    fun c => c.words[typed.length]?

theorem wordsAfter_append (typed : List String) (cs ds : List Command) :
    wordsAfter typed (cs ++ ds) = wordsAfter typed cs ++ wordsAfter typed ds := by
  simp [wordsAfter]

theorem wordsAfter_flatten (typed : List String) (css : List (List Command)) :
    wordsAfter typed css.flatten = css.flatMap (wordsAfter typed) := by
  induction css with
  | nil => rfl
  | cons cs css ih => rw [List.flatten_cons, wordsAfter_append, ih, List.flatMap_cons]

theorem wordsAfter_cons_of_le {typed : List String} {c : Command} (h : c.length ≤ typed.length)
    (cs : List Command) : wordsAfter typed (c :: cs) = wordsAfter typed cs := by
  have hc : ¬ typed.length < c.length := Nat.not_lt.mpr h
  simp [wordsAfter, hc]

theorem wordsAfter_eq_nil {typed other : List String} {cs : List Command}
    (h : ∀ c ∈ cs, other <+: c.words) (hl : other.length ≤ typed.length) (hn : ¬ other <+: typed) :
    wordsAfter typed cs = [] := by
  have hf : cs.filter (fun c => typed.length < c.length ∧ c.words.take typed.length = typed) = [] := by
    refine List.filter_eq_nil_iff.mpr fun c hc ht => hn ?_
    have ht := (of_decide_eq_true ht).2
    exact List.prefix_of_prefix_length_le (h c hc) (List.prefix_iff_eq_take.mpr ht.symm) hl
  rw [wordsAfter, hf]
  rfl

theorem wordsAfter_eq_replicate {typed : List String} {w : String} {cs : List Command}
    (h : ∀ c ∈ cs, typed ++ [w] <+: c.words) : wordsAfter typed cs = List.replicate cs.length w := by
  induction cs with
  | nil => rfl
  | cons c cs ih =>
    obtain ⟨rest, hw⟩ := h c List.mem_cons_self
    have hlen : typed.length < c.length := by
      rw [← Command.length_words, ← hw]
      simp
    have ih := ih fun d hd => h d (List.mem_cons_of_mem c hd)
    rw [List.length_cons, List.replicate_succ, ← ih]
    simp [wordsAfter, hlen, ← hw]

/-- The last words of the commands offered are the words that follow in those enumerated. -/
def Offers (typed : List String) (offered found : List Command) : Prop :=
  SameWords (offered.filterMap Command.lastWord?) (wordsAfter typed found)

theorem Offers.append {typed : List String} {os ps cs ds : List Command} (hc : Offers typed os cs)
    (hd : Offers typed ps ds) : Offers typed (os ++ ps) (cs ++ ds) := by
  rw [Offers, List.filterMap_append, wordsAfter_append]
  exact SameWords.append hc hd

theorem Offers.flatten {typed : List String} {oss css : List (List Command)}
    (h : List.Forall₂ (Offers typed) oss css) : Offers typed oss.flatten css.flatten := by
  rw [Offers, wordsAfter_flatten, List.filterMap_flatten]
  exact SameWords.flatMap h

theorem Branch.offers_first {n : Node} {c : Command} {p : Part} {found : List Command}
    (h : scene.Branch s n c (c.push p) found) :
    Offers c.words (if !found.isEmpty then [c.push p] else []) found := by
  have hw : wordsAfter c.words found = List.replicate found.length p.word := by
    refine wordsAfter_eq_replicate fun d hd => ?_
    rw [← Command.words_push]
    exact h.words_prefix hd
  rw [Offers, hw]
  cases found with
  | nil => rfl
  | cons d ds =>
    have hlast : [c.push p].filterMap Command.lastWord? = [p.word] := by simp
    simp only [List.isEmpty_cons, Bool.not_false, if_true, hlast]
    exact sameWords_replicate p.word ds.length

mutual

theorem ConditionsKeep.nextAt (hs : scene.ConditionsKeep s) (typed : List String) :
    ∀ (n : Node) {c : Command} {found : List Command}, c.words <+: typed →
      Yields (scene.Asked s) (scene.commandsAt n c) found →
      ∃ offered, Yields (scene.Asked s) (scene.nextAt typed n c) offered ∧ Offers typed offered found
  | .node slot complete children, c, found, hc, h => by
    obtain ⟨longer, founds, hl, rfl, hb⟩ := hs.split_commandsAt h
    have hsplit : ∀ next found, scene.Branch s (.node slot complete children) c next found →
        ∃ offered, Yields (scene.Asked s) (do
          if typed.length < next.length then
            return if ← scene.completes (.node slot complete children) next then [next] else []
          else if next.agrees typed then scene.nextBelow typed children next
          else return []) offered ∧ Offers typed offered found := by
      intro next found hb
      obtain ⟨⟨p, rfl⟩, rest, hr, hfound⟩ := id hb
      by_cases hlt : typed.length < (c.push p).length
      · have hle := hc.length_le
        rw [Command.length_words] at hle
        have heq : c.words = typed := hc.eq_of_length (by
          rw [Command.length_push] at hlt
          rw [Command.length_words]
          omega)
        rw [if_pos hlt, ← heq]
        exact ⟨_, (hs.completes _ hb).bind (yields_pure _), hb.offers_first⟩
      · rw [if_neg hlt]
        have hle := Nat.le_of_not_lt hlt
        by_cases ha : (c.push p).agrees typed = true
        · obtain ⟨offered, ho, hw⟩ := hs.nextBelow typed children ((agrees_push_iff hc p).mp ha) hr
          refine ⟨offered, by rwa [if_pos ha], ?_⟩
          rw [hfound]
          cases complete with
          | true => rwa [if_pos rfl, Offers, wordsAfter_cons_of_le hle]
          | false => exact hw
        · have hnil : wordsAfter typed found = [] :=
            wordsAfter_eq_nil (fun d hd => hb.words_prefix hd) (by rwa [Command.length_words])
              fun hn => ha ((agrees_push_iff hc p).mpr hn)
          refine ⟨[], by rw [if_neg ha]; exact yields_pure [], ?_⟩
          rw [Offers, hnil]
          rfl
    obtain ⟨offered, ho, hw⟩ := exists_yields_mapM (hb.imp hsplit)
    rw [Scene.nextAt]
    exact ⟨offered.flatten, hl.bind (ho.bind (yields_pure _)), Offers.flatten hw⟩

theorem ConditionsKeep.nextBelow (hs : scene.ConditionsKeep s) (typed : List String) :
    ∀ (ns : List Node) {c : Command} {found : List Command}, c.words <+: typed →
      Yields (scene.Asked s) (scene.commandsBelow ns c) found →
      ∃ offered, Yields (scene.Asked s) (scene.nextBelow typed ns c) offered ∧ Offers typed offered found
  | [], c, found, hc, h => by
    cases (h s .start).1
    exact ⟨[], yields_pure [], rfl⟩
  | n :: ns, c, found, hc, h => by
    obtain ⟨first, rest, hf, hr, rfl⟩ := hs.split_commandsBelow h
    obtain ⟨os, hos, hfirst⟩ := hs.nextAt typed n hc hf
    obtain ⟨ps, hps, hrest⟩ := hs.nextBelow typed ns hc hr
    rw [Scene.nextBelow]
    exact ⟨os ++ ps, hos.bind (hps.bind (yields_pure _)), hfirst.append hrest⟩

end

/-- The words offered after typed words are those that follow them in the enumerated commands, in the
order of the enumeration and without later repetitions. Offering them leaves the store as it was but for
the next mark. -/
theorem nextWords_eq (hs : scene.ConditionsKeep s) {found : List Command}
    (h : (runOn scene.commands s).1 = .ok found) (typed : List String) :
    ∃ t, runOn (scene.nextWords typed) s = (.ok (wordsAfter typed found).eraseDups, t) ∧
      scene.Asked s t ∧ s.UpToMarks t := by
  have hnil : Command.empty.words <+: typed := List.nil_prefix
  obtain ⟨offered, ho, hw⟩ :=
    hs.nextBelow typed Grammar.roots hnil (hs.commands.yields .start h)
  have hwords : firstOfEach id (offered.filterMap Command.lastWord?) =
      (wordsAfter typed found).eraseDups := by
    rw [firstOfEach_id_eq]
    exact hw
  have hnext : Yields (scene.Asked s) (scene.nextWords typed) (wordsAfter typed found).eraseDups := by
    rw [← hwords]
    exact Yields.bind ho (yields_pure _)
  obtain ⟨t, ht, hrun⟩ := hnext.exists_runOn .start
  exact ⟨t, hrun, ht, (hs t ht).1⟩

/-- The direction and the object `north` are offered as one word, and a direction may follow the object
although none may follow the direction. -/
theorem nextWords_crossroads : crossroads.ConditionsKeep openNorth ∧
    (runOn crossroads.commands openNorth).1 = .ok crossroadsCommands ∧
    (∃ t, runOn (crossroads.nextWords ["go"]) openNorth = (.ok ["north"], t) ∧
      crossroads.Asked openNorth t ∧ openNorth.UpToMarks t) ∧
    (∃ t, runOn (crossroads.nextWords ["go", "north"]) openNorth = (.ok ["north"], t) ∧
      crossroads.Asked openNorth t ∧ openNorth.UpToMarks t) :=
  ⟨conditionsKeep_crossroads, commands_crossroads,
    nextWords_eq conditionsKeep_crossroads commands_crossroads ["go"],
    nextWords_eq conditionsKeep_crossroads commands_crossroads ["go", "north"]⟩

end Scene

end TextAdventure
