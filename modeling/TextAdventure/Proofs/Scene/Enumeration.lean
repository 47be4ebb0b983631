import TextAdventure.Proofs.Scene.Asking

/-! # What the enumeration of commands comes to

Every enumerated command is derived along one branch of the grammar, one part at a node, whatever the
entities offer at the time. If the conditions of all offers leave the store as it was, then so do all
walks, and an enumeration that succeeds splits along the grammar into enumerations that succeed.
-/
namespace TextAdventure

open Eval
open Grammar (Node Slot)

namespace Scene

variable {scene : Scene} {s t : Store}

/-- What a word in a slot makes of a command, whatever the entities offer. -/
inductive Grows (scene : Scene) : Slot → Command → Command → Prop
  | intransitiveVerb {c : Command} {v : Verb} (hv : v ∈ Dictionary.values scene.verbs)
      (h : v.isIntransitive = true) : Grows scene .intransitiveVerb c (c.withVerb v)
  | transitiveVerb {c : Command} {v : Verb} (hv : v ∈ Dictionary.values scene.verbs)
      (h : v.isTransitive = true) : Grows scene .transitiveVerb c (c.withVerb v)
  | directObject {c : Command} (id : String) : Grows scene .directObject c (c.withObject id)
  | modifier {c : Command} {v : Verb} {kind : String} (hv : c.verb? = some v)
      (hk : kind ∈ v.modifiers) (value : String) :
      Grows scene .modifier c (c.withModifier kind value)
  | preposition {c : Command} {v : Verb} {word : String} (hv : c.verb? = some v)
      (hw : word ∈ v.prepositions) : Grows scene .preposition c (c.withPreposition word)
  | indirectObject {c : Command} (id : String) : Grows scene .indirectObject c (c.withObject id)

/-- The complete commands that a node and its descendants make of a command, if a relation says what a
word in a slot makes of one. -/
inductive Derives (grows : Slot → Command → Command → Prop) : Node → Command → Command → Prop
  | last {slot : Slot} {children : List Node} {c next : Command} (h : grows slot c next) :
      Derives grows (.node slot true children) c next
  | step {slot : Slot} {complete : Bool} {child : Node} {children : List Node}
      {c next found : Command} (h : grows slot c next) (hc : child ∈ children)
      (hd : Derives grows child next found) : Derives grows (.node slot complete children) c found

theorem Grows.eq_push {slot : Slot} {c next : Command} (h : Grows scene slot c next) :
    ∃ p, next = c.push p := by
  cases h <;> exact ⟨_, rfl⟩

theorem Derives.parts_eq {grows : Slot → Command → Command → Prop}
    (hg : ∀ {slot c next}, grows slot c next → ∃ p, next = c.push p) {n : Node} {c found : Command}
    (h : Derives grows n c found) : ∃ p ps, found.parts = c.parts ++ p :: ps := by
  induction h with
  | last h =>
    obtain ⟨p, rfl⟩ := hg h
    exact ⟨p, [], rfl⟩
  | step h _ _ ih =>
    obtain ⟨p, rfl⟩ := hg h
    obtain ⟨q, qs, hq⟩ := ih
    exact ⟨p, q :: qs, by simp [hq, Command.push]⟩

theorem Derives.words_eq {n : Node} {c found : Command} (h : Derives (Grows scene) n c found) :
    ∃ w ws, found.words = c.words ++ w :: ws := by
  obtain ⟨p, ps, hp⟩ := h.parts_eq Grows.eq_push
  exact ⟨p.word, ps.map Part.word, by simp [Command.words, hp]⟩

theorem mem_map_of_ok {f : Entity → Command} {m : Eval (List Entity)} {found : List Command}
    (h : runOn (do return (← m).map f) s = (.ok found, t)) {next : Command} (hn : next ∈ found) :
    ∃ e, next = f e := by
  obtain ⟨es, u, _, h⟩ := split_bind h
  cases h
  obtain ⟨e, _, rfl⟩ := List.mem_map.mp hn
  exact ⟨e, rfl⟩

theorem grows_of_mem_extend {slot : Slot} {c next : Command} {longer : List Command}
    (h : runOn (scene.extend slot c) s = (.ok longer, t)) (hn : next ∈ longer) :
    Grows scene slot c next := by
  cases slot with
  | intransitiveVerb =>
    cases h
    obtain ⟨v, hv, rfl⟩ := List.mem_map.mp hn
    obtain ⟨hv, hi⟩ := List.mem_filter.mp hv
    exact .intransitiveVerb hv hi
  | transitiveVerb =>
    cases h
    obtain ⟨v, hv, rfl⟩ := List.mem_map.mp hn
    obtain ⟨hv, ht⟩ := List.mem_filter.mp hv
    exact .transitiveVerb hv ht
  | directObject =>
    simp only [extend, directObjects] at h
    cases hv : c.verb? with
    | none =>
      rw [hv] at h
      cases h
      cases hn
    | some v =>
      rw [hv] at h
      obtain ⟨e, rfl⟩ := mem_map_of_ok h hn
      exact .directObject e.id
  | modifier =>
    cases h
    simp only [modified] at hn
    cases hv : c.verb? with
    | none =>
      rw [hv] at hn
      cases hn
    | some v =>
      rw [hv] at hn
      obtain ⟨kind, hk, hn⟩ := List.mem_flatMap.mp hn
      obtain ⟨value, _, rfl⟩ := List.mem_map.mp hn
      exact .modifier hv hk value
  | preposition =>
    cases h
    simp only [prepositioned] at hn
    cases hv : c.verb? with
    | none =>
      rw [hv] at hn
      cases hn
    | some v =>
      rw [hv] at hn
      obtain ⟨word, hw, rfl⟩ := List.mem_map.mp hn
      exact .preposition hv hw
  | indirectObject =>
    simp only [extend, indirectObjects] at h
    cases hv : c.verb? with
    | none =>
      rw [hv] at h
      cases h
      cases hn
    | some v =>
      cases hp : c.preposition? with
      | none =>
        rw [hv, hp] at h
        cases h
        cases hn
      | some word =>
        rw [hv, hp] at h
        obtain ⟨e, rfl⟩ := mem_map_of_ok h hn
        exact .indirectObject e.id

mutual

theorem derives_of_mem_commandsAt : ∀ (n : Node) {c found : Command} {cs : List Command}
    {s t : Store}, runOn (scene.commandsAt n c) s = (.ok cs, t) → found ∈ cs → Derives (Grows scene) n c found
  | .node slot complete children, c, found, cs, s, t, h, hf => by
    rw [commandsAt] at h
    obtain ⟨longer, u, hl, h⟩ := split_bind h
    obtain ⟨founds, v, hm, h⟩ := split_bind h
    cases h
    obtain ⟨below, hb, hf⟩ := List.mem_flatten.mp hf
    obtain ⟨next, hn, u', v', hr⟩ := exists_of_mem_mapM hm hb
    have hg := grows_of_mem_extend hl hn
    obtain ⟨rest, w, hrest, hr⟩ := split_bind hr
    cases hr
    have hrec : found ∈ rest → Derives (Grows scene) (.node slot complete children) c found := by
      intro hf
      obtain ⟨child, hc, hd⟩ := derives_of_mem_commandsBelow children hrest hf
      exact .step hg hc hd
    cases complete with
    | false => exact hrec hf
    | true =>
      rcases List.mem_cons.mp hf with rfl | hf
      · exact .last hg
      · exact hrec hf

theorem derives_of_mem_commandsBelow : ∀ (ns : List Node) {c found : Command} {cs : List Command}
    {s t : Store}, runOn (scene.commandsBelow ns c) s = (.ok cs, t) → found ∈ cs →
      ∃ n ∈ ns, Derives (Grows scene) n c found
  | [], c, found, cs, s, t, h, hf => by
    cases h
    cases hf
  | n :: ns, c, found, cs, s, t, h, hf => by
    rw [commandsBelow] at h
    obtain ⟨cs, u, hn, h⟩ := split_bind h
    obtain ⟨ds, v, hns, h⟩ := split_bind h
    cases h
    rcases List.mem_append.mp hf with hf | hf
    · exact ⟨n, List.mem_cons_self, derives_of_mem_commandsAt n hn hf⟩
    · obtain ⟨m, hm, hd⟩ := derives_of_mem_commandsBelow ns hns hf
      exact ⟨m, List.mem_cons_of_mem n hm, hd⟩

end

theorem ConditionsKeep.extend (hs : scene.ConditionsKeep s) (slot : Slot) (c : Command) :
    Steady (scene.Asked s) (scene.extend slot c) :=
  (compositional_steady _).extend hs.offersHave slot c

theorem ConditionsKeep.commandsAt (hs : scene.ConditionsKeep s) (n : Node) (c : Command) :
    Steady (scene.Asked s) (scene.commandsAt n c) :=
  (compositional_steady _).commandsAt hs.offersHave n c

theorem ConditionsKeep.commandsBelow (hs : scene.ConditionsKeep s) (ns : List Node) (c : Command) :
    Steady (scene.Asked s) (scene.commandsBelow ns c) :=
  (compositional_steady _).commandsBelow hs.offersHave ns c

theorem ConditionsKeep.commands (hs : scene.ConditionsKeep s) :
    Steady (scene.Asked s) scene.commands :=
  hs.commandsBelow Grammar.roots .empty

/-- The complete commands that begin with a command which a node has just made of another one. -/
def Branch (scene : Scene) (s : Store) : Node → Command → Command → List Command → Prop
  | .node _ complete children, c, next, found =>
    (∃ p, next = c.push p) ∧ ∃ rest, Yields (scene.Asked s) (scene.commandsBelow children next) rest ∧
      found = if complete then next :: rest else rest

theorem ConditionsKeep.split_commandsAt (hs : scene.ConditionsKeep s) {slot : Slot} {complete : Bool}
    {children : List Node} {c : Command} {found : List Command}
    (h : Yields (scene.Asked s) (scene.commandsAt (.node slot complete children) c) found) :
    ∃ longer founds, Yields (scene.Asked s) (scene.extend slot c) longer ∧ found = founds.flatten ∧
      List.Forall₂ (scene.Branch s (.node slot complete children) c) longer founds := by
  have hbranch : ∀ next, Steady (scene.Asked s) (do
      let rest ← scene.commandsBelow children next
      return if complete then next :: rest else rest) :=
    fun next => (hs.commandsBelow children next).bind fun rest => steady_pure _
  have hbranches : ∀ longer : List Command, Steady (scene.Asked s) (longer.mapM fun next => do
      let rest ← scene.commandsBelow children next
      return if complete then next :: rest else rest) :=
    fun longer => (compositional_steady _).mapM fun next _ => hbranch next
  rw [Scene.commandsAt] at h
  obtain ⟨longer, hl, h⟩ := h.split .start (hs.extend slot c) fun longer =>
    (hbranches longer).bind fun founds => steady_pure _
  obtain ⟨founds, hf, h⟩ := h.split .start (hbranches longer) fun founds => steady_pure _
  cases (h s .start).1
  refine ⟨longer, founds, hl, rfl, (List.forall₂_and_left _ _).mpr ⟨fun next hn => ?_, ?_⟩⟩
  · obtain ⟨t, _, hrun⟩ := hl.exists_runOn .start
    exact (grows_of_mem_extend hrun hn).eq_push
  · refine (hf.split_mapM .start fun next _ => hbranch next).imp fun next found h => ?_
    obtain ⟨rest, hr, h⟩ := h.split .start (hs.commandsBelow children next) fun rest => steady_pure _
    cases (h s .start).1
    exact ⟨rest, hr, rfl⟩

theorem ConditionsKeep.split_commandsBelow (hs : scene.ConditionsKeep s) {n : Node} {ns : List Node}
    {c : Command} {found : List Command}
    (h : Yields (scene.Asked s) (scene.commandsBelow (n :: ns) c) found) :
    ∃ first rest, Yields (scene.Asked s) (scene.commandsAt n c) first ∧
      Yields (scene.Asked s) (scene.commandsBelow ns c) rest ∧ found = first ++ rest := by
  have hrest : ∀ first : List Command, Steady (scene.Asked s) (do
      return first ++ (← scene.commandsBelow ns c)) :=
    fun first => (hs.commandsBelow ns c).bind fun rest => steady_pure _
  rw [Scene.commandsBelow] at h
  obtain ⟨first, hf, h⟩ := h.split .start (hs.commandsAt n c) hrest
  obtain ⟨rest, hr, h⟩ := h.split .start (hs.commandsBelow ns c) fun rest => steady_pure _
  cases (h s .start).1
  exact ⟨first, rest, hf, hr, rfl⟩

theorem derives_of_yields {ns : List Node} {c found : Command} {cs : List Command}
    (h : Yields (scene.Asked s) (scene.commandsBelow ns c) cs) (hf : found ∈ cs) :
    ∃ n ∈ ns, Derives (Grows scene) n c found := by
  obtain ⟨t, _, hrun⟩ := h.exists_runOn .start
  exact derives_of_mem_commandsBelow ns hrun hf

theorem Branch.words_prefix {n : Node} {c next c' : Command} {found : List Command}
    (h : scene.Branch s n c next found) (hf : c' ∈ found) : next.words <+: c'.words := by
  obtain ⟨slot, complete, children⟩ := n
  obtain ⟨_, rest, hr, rfl⟩ := h
  have hrest : c' ∈ rest → next.words <+: c'.words := by
    intro hf
    obtain ⟨n, _, hd⟩ := derives_of_yields hr hf
    obtain ⟨w, ws, hw⟩ := hd.words_eq
    exact ⟨w :: ws, hw.symm⟩
  cases complete with
  | false => exact hrest hf
  | true =>
    rcases List.mem_cons.mp hf with rfl | hf
    · exact List.prefix_rfl
    · exact hrest hf

/-- If the words begin with a command, they begin with one made of it by a word more exactly if
that word comes next. -/
theorem agrees_push_iff {words : List String} {c : Command} (h : c.words <+: words) (p : Part) :
    (c.push p).agrees words = true ↔ (c.push p).words <+: words := by
  obtain ⟨rest, rfl⟩ := h
  have hi : (c.words ++ rest)[c.length]? = rest.head? := by
    rw [← Command.length_words, List.getElem?_append_right (Nat.le_refl _), Nat.sub_self,
      List.head?_eq_getElem?]
  simp only [Command.agrees, Command.lastWord?_push, Command.length_push, Nat.add_sub_cancel, hi,
    Command.words_push, List.prefix_append_right_inj, decide_eq_true_eq]
  cases rest with
  | nil => simp
  | cons w ws => simp [List.cons_prefix_cons, eq_comm]

/-- A verb that may stand alone, with a direction, and may take an object. -/
def go : Verb :=
  (Verb.new "go").withTrait .transitive |>.withTrait .intransitive |>.withModifier "direction"

/-- A function that accepts whatever it is given. -/
def accepting : Function :=
  ⟨0, .script ⟨"accept", [], ⟨"true", .constant (.bool true)⟩⟩⟩

/-- A condition on a name that is handed to the function first, in a map of its own. -/
def acceptedIf (source name : String) : Script :=
  ⟨source, .logical .and (.callName "accept" [.record [(name, .name name)]]) (.name name)⟩

/-- A direction that can also be gone to while it is open. -/
def north : Entity :=
  Entity.new "north" |>.withModifier "direction" "north"
    |>.withVerb ((Offer.ofDeclaration "go").withCondition (acceptedIf "accept({open: open}) && open" "open"))

def crossroads : Scene :=
  (Scene.new (VerbTable.ofVerbs [go])).add "location" north

def openNorth : Store :=
  { (Store.new 0 Store.defaultMaxCalls).insertEntity "north" [("open", .bool true)] with
    globals := [("accept", .function accepting)]
    nextIdentity := 1 }

/-- The map that the condition makes takes a mark; nothing else is left of it. -/
theorem runOn_stands_north (n : Nat) {o : Offer} (ho : o ∈ north.verbs) :
    runOn (o.stands north.id) { openNorth with nextIdentity := n } =
      (.ok true, { openNorth with nextIdentity := n + 1 }) := by
  cases List.mem_singleton.mp ho
  rfl

theorem conditionsKeep_crossroads : crossroads.ConditionsKeep openNorth := by
  refine conditionsKeep_of_marks fun e he o ho n _ => ?_
  cases List.mem_singleton.mp he
  have hrun := runOn_stands_north n ho
  have hfirst := runOn_stands_north openNorth.nextIdentity ho
  exact ⟨by rw [hrun, hfirst], n + 1, Nat.le_succ n, by rw [hrun]⟩

def crossroadsCommands : List Command :=
  [⟨[.verb go]⟩, ⟨[.verb go, .modifier "direction" "north"]⟩, ⟨[.verb go, .directObject "north"]⟩,
    ⟨[.verb go, .directObject "north", .modifier "direction" "north"]⟩]

theorem commands_crossroads :
    (runOn crossroads.commands openNorth).1 = .ok crossroadsCommands := by
  rfl

end Scene

end TextAdventure
