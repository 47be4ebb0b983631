import TextAdventure.Proofs.Scene.Lookup
import TextAdventure.Session

/-! # Which listed commands can be submitted

A session lists commands word by word, and a line of input is split at its blanks. Words joined by single
spaces come apart again exactly if none of them is empty or has a blank in it. Nothing keeps ids and
values from being such, so a listed command is understood exactly if all its words can be typed.
-/
namespace TextAdventure

open Eval

namespace Text

/-- A line of input can hold the word as one word: it is not empty, and there is no blank in it. -/
def IsWord (w : String) : Prop :=
  w ≠ "" ∧ ∀ c ∈ w.toList, isBlank c = false

instance (w : String) : Decidable (IsWord w) :=
  decidable_of_iff (w ≠ "" ∧ w.toList.all fun c => isBlank c = false) (by simp [IsWord])

theorem wordsFrom_append {cs : List Char} (h : ∀ c ∈ cs, isBlank c = false) (word rest : List Char) :
    wordsFrom word (cs ++ rest) = wordsFrom (cs.reverse ++ word) rest := by
  induction cs generalizing word with
  | nil => rfl
  | cons c cs ih =>
    have hc := h c List.mem_cons_self
    have hcs := ih fun d hd => h d (List.mem_cons_of_mem c hd)
    simp [wordsFrom, hc, hcs]

theorem wordsFrom_blank {c : Char} (hc : isBlank c = true) {word : List Char} (hw : word ≠ [])
    (rest : List Char) : wordsFrom word (c :: rest) = word.reverse :: wordsFrom [] rest := by
  simp [wordsFrom, hc, hw]

theorem mem_wordsFrom {cs word w : List Char} (hword : ∀ c ∈ word, isBlank c = false)
    (h : w ∈ wordsFrom word cs) : w ≠ [] ∧ ∀ c ∈ w, isBlank c = false := by
  have hnil : ∀ c ∈ ([] : List Char), isBlank c = false := fun _ hc => absurd hc List.not_mem_nil
  fun_induction wordsFrom word cs with
  | case1 word hempty => cases h
  | case2 word hempty =>
    cases List.mem_singleton.mp h
    exact ⟨by simpa using hempty, fun c hc => hword c (List.mem_reverse.mp hc)⟩
  | case3 word c cs hc hempty ih => exact ih hnil h
  | case4 word c cs hc hempty ih =>
    rcases List.mem_cons.mp h with rfl | h
    · exact ⟨by simpa using hempty, fun c hc => hword c (List.mem_reverse.mp hc)⟩
    · exact ih hnil h
  | case5 word c cs hc ih =>
    exact ih (List.forall_mem_cons.mpr ⟨by simpa using hc, hword⟩) h

theorem isWord_of_mem_words {line w : String} (h : w ∈ words line) : IsWord w := by
  obtain ⟨cs, hcs, rfl⟩ := List.mem_map.mp h
  obtain ⟨hne, hblank⟩ := mem_wordsFrom (fun _ hc => absurd hc List.not_mem_nil) hcs
  refine ⟨fun he => hne (by simpa using congrArg String.toList he), ?_⟩
  simpa using hblank

theorem words_intercalate {ws : List String} (h : ∀ w ∈ ws, IsWord w) :
    words (" ".intercalate ws) = ws := by
  have hjoin : ∀ ws : List String, (∀ w ∈ ws, IsWord w) →
      wordsFrom [] ([' '].intercalate (ws.map String.toList)) = ws.map String.toList := by
    intro ws h
    induction ws with
    | nil => rfl
    | cons w ws ih =>
      obtain ⟨hne, hblank⟩ := h w List.mem_cons_self
      have hchars : w.toList ≠ [] := by simpa using hne
      cases ws with
      | nil =>
        have hword := wordsFrom_append hblank [] []
        simpa [wordsFrom, hchars] using hword
      | cons v ws =>
        have hrest := ih fun u hu => h u (List.mem_cons_of_mem w hu)
        simp only [List.map_cons, List.intercalate_cons_cons, List.append_assoc,
          List.singleton_append] at hrest ⊢
        rw [wordsFrom_append hblank, List.append_nil, wordsFrom_blank (by rfl) (by simpa using hchars),
          List.reverse_reverse, hrest]
  rw [words, String.toList_intercalate]
  change (wordsFrom [] ([' '].intercalate (ws.map String.toList))).map String.ofList = ws
  rw [hjoin ws h, List.map_map]
  simp [Function.comp_def]

/-- Joining words by spaces can be undone exactly if all of them can be typed. -/
theorem words_intercalate_eq_iff {ws : List String} :
    words (" ".intercalate ws) = ws ↔ ∀ w ∈ ws, IsWord w := by
  refine ⟨fun h w hw => ?_, words_intercalate⟩
  rw [← h] at hw
  exact isWord_of_mem_words hw

end Text

namespace Session

variable {s : Session}

/-- The command that a line of input is resolved to is the given one. -/
def Understands (s : Session) (input : String) (c : Command) : Prop :=
  (runOn (s.scene.exact (Text.words input)) s.store).1 = .ok (some c)

/-- What is understood is dispatched, from the store that looking it up has led to. -/
theorem submit_of_understands (hs : s.scene.ConditionsKeep s.store) {input : String} {c : Command}
    (h : s.Understands input c) :
    ∃ t, s.scene.Asked s.store t ∧ s.store.UpToMarks t ∧
      s.submit input = { s with store := t }.evaluate (some <$> s.registry.dispatch c s.surroundings) := by
  have hsteady : Steady (s.scene.Asked s.store) (s.scene.exact (Text.words input)) :=
    (compositional_steady _).exact hs.offersHave (Text.words input)
  obtain ⟨t, ht, hlookup⟩ := (hsteady.yields .start h).exists_runOn .start
  have hrun : runOn (s.respond input) s.store =
      runOn (some <$> s.registry.dispatch c s.surroundings) t := by
    rw [respond, runOn_bind, hlookup, ← bind_pure_comp]
  refine ⟨t, ht, (hs t ht).1, ?_⟩
  simp only [submit, evaluate, hrun]

theorem words_of_understands (hs : s.scene.ConditionsKeep s.store) {found : List Command}
    (hfound : (runOn s.scene.commands s.store).1 = .ok found) {input : String} {c : Command}
    (h : s.Understands input c) : c.words = Text.words input := by
  rw [Understands, (hs.exact hfound (Text.words input) s.store .start).1] at h
  have hfind : found.find? (fun c => c.words = Text.words input) = some c := Except.ok.inj h
  simpa using List.find?_some hfind

/-- A listed command can be submitted exactly if all of its words can be typed. If the conditions of the
offers keep the store, the words of a listed command, joined by single spaces, are understood as a command
with exactly these words, which is then dispatched from the store as it was but for the next mark, if none
of them is empty or has a blank in it; otherwise they are understood as no such command. -/
theorem understands_listed_iff (hs : s.scene.ConditionsKeep s.store) {listed : List (List String)}
    (hlisted : s.commands.1 = .ok listed) {ws : List String} (hws : ws ∈ listed) :
    (∃ c, s.Understands (" ".intercalate ws) c ∧ c.words = ws ∧
        ∃ t, s.scene.Asked s.store t ∧ s.store.UpToMarks t ∧
          s.submit (" ".intercalate ws) =
            { s with store := t }.evaluate (some <$> s.registry.dispatch c s.surroundings)) ↔
      ∀ w ∈ ws, Text.IsWord w := by
  simp only [commands, evaluate, runOn_map] at hlisted
  obtain ⟨found, hfound, rfl⟩ := Error.map_eq_ok_iff.mp hlisted
  obtain ⟨c, hc, rfl⟩ := List.mem_map.mp hws
  rw [← Text.words_intercalate_eq_iff]
  constructor
  · rintro ⟨d, hd, hwords, _⟩
    rw [← words_of_understands hs hfound hd, hwords]
  · intro hjoin
    obtain ⟨d, hd⟩ : ∃ d, found.find? (fun d => d.words = c.words) = some d := by
      rw [← Option.isSome_iff_exists, List.find?_isSome]
      exact ⟨c, hc, by simp⟩
    have hunderstands : s.Understands (" ".intercalate c.words) d := by
      rw [Understands, (hs.exact hfound _ s.store .start).1, hjoin, hd]
    exact ⟨d, hunderstands, by simpa using List.find?_some hd, submit_of_understands hs hunderstands⟩

def take : Verb :=
  (Verb.new "take").withTrait .transitive

def takeable (id : String) : Entity :=
  Entity.new id |>.withVerb (Offer.ofDeclaration "take")

/-- Two lamps to take. The id of one of them has a blank in it. -/
def cellar : Session :=
  Session.new .testing |>.addVerb take
    |>.addEntity (takeable "lamp") [] |>.addEntity (takeable "brass lamp") []
    |>.place "environment" "lamp" |>.place "environment" "brass lamp"

theorem conditionsKeep_cellar : cellar.scene.ConditionsKeep cellar.store := by
  refine (Scene.conditionsKeep_of_eq ?_).1
  have hvalues : cellar.scene.groups.values = [takeable "lamp", takeable "brass lamp"] := by rfl
  intro e he o ho
  rw [hvalues] at he
  rcases List.mem_pair.mp he with rfl | rfl <;> cases List.mem_singleton.mp ho <;> rfl

theorem commands_cellar :
    cellar.commands.1 = .ok [["take", "lamp"], ["take", "brass lamp"]] := by
  rfl

/-- One of the lamps can be taken. -/
theorem understands_listed_cellar : cellar.scene.ConditionsKeep cellar.store ∧
    cellar.commands.1 = .ok [["take", "lamp"], ["take", "brass lamp"]] ∧
    (∃ c, cellar.Understands "take lamp" c ∧ c.words = ["take", "lamp"]) ∧
    ¬ ∃ c, cellar.Understands "take brass lamp" c ∧ c.words = ["take", "brass lamp"] := by
  have hlisted := fun ws => @understands_listed_iff cellar conditionsKeep_cellar _ commands_cellar ws
  refine ⟨conditionsKeep_cellar, commands_cellar, ?_, ?_⟩
  · obtain ⟨c, hc, hwords, _⟩ := (hlisted ["take", "lamp"] (by decide)).mpr (by decide)
    exact ⟨c, hc, hwords⟩
  · rintro ⟨c, hc, hwords⟩
    have hwords' := (hlisted ["take", "brass lamp"] (by decide)).mp
      ⟨c, hc, hwords, submit_of_understands conditionsKeep_cellar hc⟩
    exact absurd hwords' (by decide)

/-- The other lamp is listed as something to take, but to submit that is not recognised. -/
theorem not_understands_listed : cellar.scene.ConditionsKeep cellar.store ∧
    (∃ listed, cellar.commands.1 = .ok listed ∧ ["take", "brass lamp"] ∈ listed) ∧
    (cellar.submit (" ".intercalate ["take", "brass lamp"])).1 = .ok none ∧
    ∀ c, ¬ cellar.Understands (" ".intercalate ["take", "brass lamp"]) c := by
  refine ⟨conditionsKeep_cellar, ⟨_, commands_cellar, by decide⟩, by rfl, ?_⟩
  intro c hc
  have hnone : (runOn (cellar.scene.exact (Text.words "take brass lamp")) cellar.store).1 = .ok none := by
    rfl
  rw [Understands, show " ".intercalate ["take", "brass lamp"] = "take brass lamp" from rfl, hnone] at hc
  cases hc

end Session

end TextAdventure
