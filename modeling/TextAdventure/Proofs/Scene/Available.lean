import TextAdventure.Proofs.Eval.Listing
import TextAdventure.Proofs.Scene.Shape

/-! # The available commands

Which commands are available in a scene is said here without any search: a verb of the table, a
candidate entity that offers itself, a modifier value that an entity in scope contributes. If every
condition resolves and leaves the store as it was, and no verb declares a preposition or a kind of
modifier twice, the enumeration lists exactly the available commands, each of them once.
-/
namespace TextAdventure

open Eval
open Grammar (Node Slot)

variable {scene : Scene} {s : Store}

/-- The condition resolves to something truthy where a name is a property of the entity first and
`this` is the entity. -/
def Script.HoldsFor (s : Store) (id : String) (condition : Script) : Prop :=
  ∃ found, (runOn (Eval.inScope (.block [("this", .entity id)])
    (Eval.inScope (.entity id) condition.resolve)) s).1 = .ok found ∧ found.isTruthy = true

/-- Some offer of the entity is for the verb and the preposition, and its condition holds if it has
one. -/
def Entity.IsOffered (s : Store) (verb : String) (preposition : Option String) (e : Entity) : Prop :=
  ∃ o ∈ e.verbs, o.verb = verb ∧ o.preposition = preposition ∧
    ∀ condition ∈ o.condition, condition.HoldsFor s e.id

/-- What asking about the offer comes to; an offer whose condition fails does not stand. -/
def Offer.standsIn (s : Store) (id : String) (o : Offer) : Bool :=
  match (runOn (o.stands id) s).1 with
  | .ok holds => holds
  | .error _ => false

theorem Offer.standsIn_iff (id : String) (o : Offer) :
    o.standsIn s id = true ↔ ∀ condition ∈ o.condition, condition.HoldsFor s id := by
  unfold Offer.standsIn Offer.stands
  cases o.condition with
  | none => simp
  | some condition =>
    simp only [runOn_inScope, runOn_map, Option.mem_def, Option.some.injEq, forall_eq',
      Script.HoldsFor]
    cases (runOn condition.resolve _).1 with
    | error e => simp [Except.map]
    | ok found => simp [Except.map]

/-- Some offer of the entity for the verb and the preposition stands. -/
def Entity.offersIn (s : Store) (verb : String) (preposition : Option String) (e : Entity) : Bool :=
  (e.verbs.filter (·.isFor verb preposition)).any (·.standsIn s e.id)

theorem Entity.offersIn_iff (verb : String) (preposition : Option String) (e : Entity) :
    e.offersIn s verb preposition = true ↔ e.IsOffered s verb preposition := by
  simp only [Entity.offersIn, Entity.IsOffered, List.any_eq_true, List.mem_filter, Offer.isFor,
    Bool.and_eq_true, decide_eq_true_eq, Offer.standsIn_iff]
  constructor
  · rintro ⟨o, ⟨ho, hv, hp⟩, hc⟩
    exact ⟨o, ho, hv, hp, hc⟩
  · rintro ⟨o, ho, hv, hp, hc⟩
    exact ⟨o, ⟨ho, hv, hp⟩, hc⟩

namespace Scene

/-- The conditions of all offers keep the store, and each of them resolves. -/
structure ConditionsResolve (scene : Scene) (s : Store) : Prop where
  keep : scene.ConditionsKeep s
  resolve : ∀ e ∈ scene.groups.values, ∀ o ∈ e.verbs, ∃ holds, (runOn (o.stands e.id) s).1 = .ok holds

theorem ConditionsResolve.offers (hs : scene.ConditionsResolve s) {e : Entity}
    (he : e ∈ scene.groups.values) (verb : String) (preposition : Option String) :
    Yields (scene.Asked s) (e.offers verb preposition) (e.offersIn s verb preposition) := by
  have hstands : ∀ o ∈ e.verbs.filter (·.isFor verb preposition),
      Yields (scene.Asked s) (o.stands e.id) (o.standsIn s e.id) := by
    intro o ho
    have ho := (List.mem_filter.mp ho).1
    obtain ⟨holds, hholds⟩ := hs.resolve e he o ho
    have hin : o.standsIn s e.id = holds := by rw [Offer.standsIn, hholds]
    rw [hin]
    exact (hs.keep.offersHave e he o ho).yields .start hholds
  have hany := yields_anyM (List.forall₂_map_right_iff.mpr (List.forall₂_same.mpr hstands))
  rwa [List.any_map] at hany

/-- The entities of the groups that a verb names for a role, or of all groups if it names none. -/
def pool (role : Role) (v : Verb) (scene : Scene) : List Entity :=
  match v.contextsFor role with
  | [] => scene.groups.values
  | groups => groups.flatMap fun group => scene.groups.get group

/-- Of the entities with one id only the first in the pool is a candidate. -/
def IsCandidate (scene : Scene) (role : Role) (v : Verb) (e : Entity) : Prop :=
  (scene.pool role v).find? (fun other => other.id = e.id) = some e

/-- Some entity in scope, the first with its id, has the value for the kind of modifier. -/
def Contributes (scene : Scene) (kind value : String) : Prop :=
  ∃ id e, scene.entity? id = some e ∧ value ∈ e.modifiers.get kind

theorem candidates_eq (role : Role) (v : Verb) :
    scene.candidates role v = firstOfEach Entity.id (scene.pool role v) := by
  unfold candidates pool entities
  cases v.contextsFor role <;> rfl

theorem mem_candidates_iff {role : Role} {v : Verb} {e : Entity} :
    e ∈ scene.candidates role v ↔ scene.IsCandidate role v e := by
  rw [candidates_eq, mem_firstOfEach_iff, IsCandidate]

theorem mem_entities_iff {e : Entity} : e ∈ scene.entities ↔ scene.entity? e.id = some e :=
  mem_firstOfEach_iff

theorem mem_firstOfEach_id {a : String} {as : List String} : a ∈ firstOfEach id as ↔ a ∈ as := by
  refine ⟨mem_of_mem_firstOfEach, fun h => ?_⟩
  obtain ⟨b, hb⟩ := Option.isSome_iff_exists.mp
    (List.find?_isSome (p := fun b => id b = id a).mpr ⟨a, h, by simp⟩)
  have hba : b = a := by simpa using List.find?_some hb
  rw [mem_firstOfEach_iff, hb, hba]

theorem mem_modifierValues_iff {kind value : String} :
    value ∈ scene.modifierValues kind ↔ scene.Contributes kind value := by
  rw [modifierValues, mem_firstOfEach_id, List.mem_flatMap]
  constructor
  · rintro ⟨e, he, hv⟩
    exact ⟨e.id, e, mem_entities_iff.mp he, hv⟩
  · rintro ⟨id, e, he, hv⟩
    have hid : e.id = id := by simpa using List.find?_some he
    exact ⟨e, mem_entities_iff.mpr (hid ▸ he), hv⟩

theorem IsCandidate.eq_of_id_eq {role : Role} {v : Verb} {e e' : Entity}
    (h : scene.IsCandidate role v e) (h' : scene.IsCandidate role v e') (hid : e.id = e'.id) :
    e = e' := by
  unfold IsCandidate at h h'
  rw [hid, h'] at h
  exact (Option.some.inj h).symm

/-- No verb is in the table twice, and none declares a preposition or a kind of modifier twice. -/
structure Distinct (scene : Scene) : Prop where
  byId : scene.verbs.ById
  prepositions : ∀ v ∈ Dictionary.values scene.verbs, v.prepositions.Nodup
  modifiers : ∀ v ∈ Dictionary.values scene.verbs, v.modifiers.Nodup

/-- What a word in a slot makes of a command, given what the entities offer. -/
inductive Extends (scene : Scene) (s : Store) : Slot → Command → Command → Prop
  | intransitiveVerb {c : Command} {v : Verb} (hv : v ∈ Dictionary.values scene.verbs)
      (h : v.isIntransitive = true) : Extends scene s .intransitiveVerb c (c.withVerb v)
  | transitiveVerb {c : Command} {v : Verb} (hv : v ∈ Dictionary.values scene.verbs)
      (h : v.isTransitive = true) : Extends scene s .transitiveVerb c (c.withVerb v)
  | directObject {c : Command} {v : Verb} {e : Entity} (hv : c.verb? = some v)
      (he : scene.IsCandidate .direct v e) (ho : e.IsOffered s v.id none) :
      Extends scene s .directObject c (c.withObject e.id)
  | modifier {c : Command} {v : Verb} {kind value : String} (hv : c.verb? = some v)
      (hk : kind ∈ v.modifiers) (hm : scene.Contributes kind value) :
      Extends scene s .modifier c (c.withModifier kind value)
  | preposition {c : Command} {v : Verb} {word : String} (hv : c.verb? = some v)
      (hw : word ∈ v.prepositions) : Extends scene s .preposition c (c.withPreposition word)
  | indirectObject {c : Command} {v : Verb} {word : String} {e : Entity} (hv : c.verb? = some v)
      (hw : c.preposition? = some word) (he : scene.IsCandidate .indirect v e)
      (hne : c.object? .direct ≠ some e.id) (ho : e.IsOffered s v.id (some word)) :
      Extends scene s .indirectObject c (c.withObject e.id)

theorem Extends.eq_push {slot : Slot} {c next : Command} (h : Extends scene s slot c next) :
    ∃ p, next = c.push p := by
  cases h <;> exact ⟨_, rfl⟩

/-- The verb of a command, if it has one, is in the table. -/
def VerbKnown (scene : Scene) (c : Command) : Prop :=
  ∀ v, c.verb? = some v → v ∈ Dictionary.values scene.verbs

theorem Extends.verbKnown {slot : Slot} {c next : Command} (h : Extends scene s slot c next)
    (hc : scene.VerbKnown c) : scene.VerbKnown next := by
  unfold VerbKnown at hc ⊢
  cases h with
  | intransitiveVerb hv | transitiveVerb hv => simpa using hv
  | directObject | modifier | preposition | indirectObject => simpa using hc

theorem ConditionsResolve.objects (hs : scene.ConditionsResolve s) (role : Role) (v : Verb)
    (preposition : Option String) (candidate : Entity → Bool) :
    Lists (scene.Asked s) (scene.objects role v preposition candidate) fun e =>
      (scene.IsCandidate role v e ∧ candidate e = true) ∧ e.IsOffered s v.id preposition := by
  have hnodup : (scene.candidates role v).Nodup := by
    rw [candidates_eq]
    exact (nodup_map_firstOfEach Entity.id _).of_map
  have hoffers : ∀ e ∈ (scene.candidates role v).filter candidate,
      Yields (scene.Asked s) (e.offers v.id preposition) (e.offersIn s v.id preposition) := by
    intro e he
    exact hs.offers (mem_values_of_mem_candidates (List.mem_filter.mp he).1) v.id preposition
  refine (lists_filterM (hnodup.filter candidate) hoffers).congr fun e => ?_
  rw [List.mem_filter, mem_candidates_iff, Entity.offersIn_iff]

theorem ConditionsResolve.objectCommands (hs : scene.ConditionsResolve s) (role : Role) (v : Verb)
    (preposition : Option String) (candidate : Entity → Bool) (c : Command) :
    Lists (scene.Asked s) (do
        let found ← scene.objects role v preposition candidate
        return found.map fun e => c.withObject e.id) fun next =>
      ∃ e, ((scene.IsCandidate role v e ∧ candidate e = true) ∧ e.IsOffered s v.id preposition) ∧
        c.withObject e.id = next := by
  refine (hs.objects role v preposition candidate).map ?_
  rintro e e' ⟨⟨he, _⟩, _⟩ ⟨⟨he', _⟩, _⟩ h
  exact he.eq_of_id_eq he' (Command.withObject_inj h)

theorem Distinct.nodup_verbs (hd : scene.Distinct) : (Dictionary.values scene.verbs).Nodup := by
  have hids : (Dictionary.values scene.verbs).map Verb.id = Dictionary.keys scene.verbs := by
    rw [Dictionary.values, Dictionary.keys, List.map_map]
    exact List.map_congr_left hd.byId.id_eq
  have hkeys : (Dictionary.keys scene.verbs).Nodup := by
    refine List.pairwise_map.mpr (hd.byId.sorted.imp fun hlt heq => ?_)
    exact Std.lt_irrefl (heq ▸ hlt)
  exact List.Nodup.of_map Verb.id (hids ▸ hkeys)

theorem lists_verbs (hd : scene.Distinct) (test : Verb → Bool) (c : Command) :
    Lists (scene.Asked s) (return (scene.verbsWhere test).map fun v => c.withVerb v) fun next =>
      ∃ v, (v ∈ Dictionary.values scene.verbs ∧ test v = true) ∧ c.withVerb v = next := by
  have hinj : Function.Injective fun v => c.withVerb v := by
    intro v v' h
    simpa [Command.withVerb] using h
  refine (lists_pure ((hd.nodup_verbs.filter test).map hinj)).congr fun next => ?_
  simp only [List.mem_map, List.mem_filter]

theorem mem_modified_iff {c next : Command} :
    next ∈ scene.modified c ↔ scene.Extends s .modifier c next := by
  constructor
  · intro h
    cases hv : c.verb? with
    | none => simp [modified, hv] at h
    | some v =>
      simp only [modified, hv, List.mem_flatMap, List.mem_map] at h
      obtain ⟨kind, hk, value, hm, rfl⟩ := h
      exact .modifier hv hk (mem_modifierValues_iff.mp hm)
  · intro h
    cases h with
    | modifier hv hk hm =>
      simp only [modified, hv, List.mem_flatMap, List.mem_map]
      exact ⟨_, hk, _, mem_modifierValues_iff.mpr hm, rfl⟩

theorem nodup_modified (hd : scene.Distinct) {c : Command} (hc : scene.VerbKnown c) :
    (scene.modified c).Nodup := by
  unfold modified
  cases hv : c.verb? with
  | none => exact List.nodup_nil
  | some v =>
    have hkinds := hd.modifiers v (hc v hv)
    refine List.nodup_flatMap.mpr ⟨fun kind _ => ?_, hkinds.imp fun hne => ?_⟩
    · have hvalues : (scene.modifierValues kind).Nodup := (nodup_map_firstOfEach id _).of_map
      refine hvalues.map fun value value' h => ?_
      simpa [Command.withModifier] using h
    · intro next hmem hmem'
      obtain ⟨value, _, rfl⟩ := List.mem_map.mp hmem
      obtain ⟨value', _, h⟩ := List.mem_map.mp hmem'
      simp only [Command.withModifier, Command.push_inj, Part.modifier.injEq] at h
      exact hne h.1.symm

theorem mem_prepositioned_iff {c next : Command} :
    next ∈ prepositioned c ↔ scene.Extends s .preposition c next := by
  constructor
  · intro h
    cases hv : c.verb? with
    | none => simp [prepositioned, hv] at h
    | some v =>
      simp only [prepositioned, hv, List.mem_map] at h
      obtain ⟨word, hw, rfl⟩ := h
      exact .preposition hv hw
  · intro h
    cases h with
    | preposition hv hw =>
      simp only [prepositioned, hv, List.mem_map]
      exact ⟨_, hw, rfl⟩

theorem nodup_prepositioned (hd : scene.Distinct) {c : Command} (hc : scene.VerbKnown c) :
    (prepositioned c).Nodup := by
  unfold prepositioned
  cases hv : c.verb? with
  | none => exact List.nodup_nil
  | some v =>
    refine (hd.prepositions v (hc v hv)).map fun word word' h => ?_
    simpa [Command.withPreposition] using h

theorem ConditionsResolve.directObjects (hs : scene.ConditionsResolve s) (c : Command) :
    Lists (scene.Asked s) (scene.directObjects c) (scene.Extends s .directObject c) := by
  unfold Scene.directObjects
  cases hv : c.verb? with
  | none =>
    refine (lists_pure List.nodup_nil).congr fun next => ⟨fun h => absurd h List.not_mem_nil, ?_⟩
    intro h
    cases h with
    | directObject hv' => simp [hv] at hv'
  | some v =>
    refine (hs.objectCommands .direct v none (fun _ => true) c).congr fun next => ⟨?_, ?_⟩
    · rintro ⟨e, ⟨⟨he, _⟩, ho⟩, rfl⟩
      exact .directObject hv he ho
    · intro h
      cases h with
      | directObject hv' he ho =>
        cases hv.symm.trans hv'
        exact ⟨_, ⟨⟨he, rfl⟩, ho⟩, rfl⟩

theorem ConditionsResolve.indirectObjects (hs : scene.ConditionsResolve s) (c : Command) :
    Lists (scene.Asked s) (scene.indirectObjects c) (scene.Extends s .indirectObject c) := by
  unfold Scene.indirectObjects
  split
  next v word hv hw =>
    refine (hs.objectCommands .indirect v (some word) _ c).congr fun next => ⟨?_, ?_⟩
    · rintro ⟨e, ⟨⟨he, hne⟩, ho⟩, rfl⟩
      exact .indirectObject hv hw he (of_decide_eq_true hne) ho
    · intro h
      cases h with
      | indirectObject hv' hw' he hne ho =>
        cases hv.symm.trans hv'
        cases hw.symm.trans hw'
        exact ⟨_, ⟨⟨he, decide_eq_true hne⟩, ho⟩, rfl⟩
  next hnone =>
    refine (lists_pure List.nodup_nil).congr fun next => ⟨fun h => absurd h List.not_mem_nil, ?_⟩
    intro h
    cases h with
    | indirectObject hv hw => exact absurd hw (hnone _ _ hv)

theorem ConditionsResolve.extend (hs : scene.ConditionsResolve s) (hd : scene.Distinct)
    {c : Command} (hc : scene.VerbKnown c) (slot : Slot) :
    Lists (scene.Asked s) (scene.extend slot c) (scene.Extends s slot c) := by
  cases slot with
  | intransitiveVerb =>
    refine (lists_verbs hd Verb.isIntransitive c).congr fun next => ⟨?_, ?_⟩
    · rintro ⟨v, ⟨hv, hi⟩, rfl⟩
      exact .intransitiveVerb hv hi
    · intro h
      cases h with
      | intransitiveVerb hv hi => exact ⟨_, ⟨hv, hi⟩, rfl⟩
  | transitiveVerb =>
    refine (lists_verbs hd Verb.isTransitive c).congr fun next => ⟨?_, ?_⟩
    · rintro ⟨v, ⟨hv, ht⟩, rfl⟩
      exact .transitiveVerb hv ht
    · intro h
      cases h with
      | transitiveVerb hv ht => exact ⟨_, ⟨hv, ht⟩, rfl⟩
  | directObject => exact hs.directObjects c
  | modifier => exact (lists_pure (nodup_modified hd hc)).congr fun next => mem_modified_iff
  | preposition => exact (lists_pure (nodup_prepositioned hd hc)).congr fun next => mem_prepositioned_iff
  | indirectObject => exact hs.indirectObjects c

/-- No command is derived from the same one along two branches. -/
inductive Unambiguous (grows : Slot → Command → Command → Prop) : Node → Prop
  | node {slot : Slot} {complete : Bool} {children : List Node}
      (below : ∀ n ∈ children, Unambiguous grows n)
      (apart : children.Pairwise fun n n' => ∀ c found, Derives grows n c found →
        ¬ Derives grows n' c found) : Unambiguous grows (.node slot complete children)

theorem derives_node_iff {grows : Slot → Command → Command → Prop} {slot : Slot} {complete : Bool}
    {children : List Node} {c found : Command} :
    Derives grows (.node slot complete children) c found ↔
      ∃ next, grows slot c next ∧
        (complete = true ∧ found = next ∨ ∃ n ∈ children, Derives grows n next found) := by
  constructor
  · intro h
    cases h with
    | last h => exact ⟨found, h, .inl ⟨rfl, rfl⟩⟩
    | step h hc hd => exact ⟨_, h, .inr ⟨_, hc, hd⟩⟩
  · rintro ⟨next, h, ⟨rfl, rfl⟩ | ⟨n, hn, hd⟩⟩
    · exact .last h
    · exact .step h hn hd

theorem begins_of_completed {complete : Bool} {children : List Node} {next found : Command}
    (h : complete = true ∧ found = next ∨
      ∃ n ∈ children, Derives (scene.Extends s) n next found) :
    ∃ ps, found.parts = next.parts ++ ps := by
  rcases h with ⟨_, rfl⟩ | ⟨n, _, hn⟩
  · exact ⟨[], (List.append_nil _).symm⟩
  · obtain ⟨p, ps, hps⟩ := hn.parts_eq Extends.eq_push
    exact ⟨p :: ps, hps⟩

theorem Derives.begins {slot : Slot} {complete : Bool} {children : List Node} {c found : Command}
    (h : Derives (scene.Extends s) (.node slot complete children) c found) :
    ∃ next ps, scene.Extends s slot c next ∧ found.parts = next.parts ++ ps := by
  obtain ⟨next, hnext, hcompleted⟩ := derives_node_iff.mp h
  obtain ⟨ps, hps⟩ := begins_of_completed hcompleted
  exact ⟨next, ps, hnext, hps⟩

theorem eq_of_parts_append_eq {c next next' : Command} (h : ∃ p, next = c.push p)
    (h' : ∃ p, next' = c.push p) {ps ps' : List Part}
    (heq : next.parts ++ ps = next'.parts ++ ps') : next = next' := by
  obtain ⟨p, rfl⟩ := h
  obtain ⟨p', rfl⟩ := h'
  simp only [Command.push, List.append_assoc, List.append_cancel_left_eq, List.cons_append,
    List.nil_append, List.cons.injEq] at heq
  rw [heq.1]

theorem lists_commandsBelow {ns : List Node} {c : Command}
    (h : ∀ n ∈ ns, Lists (scene.Asked s) (scene.commandsAt n c) (Derives (scene.Extends s) n c))
    (apart : ns.Pairwise fun n n' => ∀ c found, Derives (scene.Extends s) n c found →
      ¬ Derives (scene.Extends s) n' c found) :
    Lists (scene.Asked s) (scene.commandsBelow ns c) fun found => ∃ n ∈ ns, Derives (scene.Extends s) n c found := by
  induction ns with
  | nil =>
    rw [Scene.commandsBelow]
    exact (lists_pure List.nodup_nil).congr fun found => by simp
  | cons n ns ih =>
    obtain ⟨hn, hns⟩ := List.pairwise_cons.mp apart
    have hbelow := ih (fun n' hn' => h n' (List.mem_cons_of_mem n hn')) hns
    rw [Scene.commandsBelow]
    refine ((h n List.mem_cons_self).append hbelow ?_).congr fun found => ?_
    · rintro found hd ⟨n', hn', hd'⟩
      exact hn n' hn' c found hd hd'
    · rw [List.exists_mem_cons_iff]

/-- The complete commands that begin with a command: the command itself if it is complete, and what its
descendants make of it. -/
theorem lists_completed {complete : Bool} {children : List Node} {next : Command}
    (h : Lists (scene.Asked s) (scene.commandsBelow children next) fun found =>
      ∃ n ∈ children, Derives (scene.Extends s) n next found) :
    Lists (scene.Asked s) (do
        let rest ← scene.commandsBelow children next
        return if complete then next :: rest else rest) fun found =>
      complete = true ∧ found = next ∨ ∃ n ∈ children, Derives (scene.Extends s) n next found := by
  obtain ⟨rest, hrest, hnodup, hmem⟩ := h
  refine ⟨_, hrest.bind (yields_pure _), ?_⟩
  cases complete with
  | false => simpa using ⟨hnodup, hmem⟩
  | true =>
    have hnext : next ∉ rest := by
      intro hin
      obtain ⟨n, _, hd⟩ := (hmem next).mp hin
      obtain ⟨p, ps, hps⟩ := hd.parts_eq Extends.eq_push
      simp at hps
    exact ⟨List.nodup_cons.mpr ⟨hnext, hnodup⟩, fun found => by simp [hmem]⟩

theorem lists_commandsAt (hs : scene.ConditionsResolve s) (hd : scene.Distinct) {n : Node}
    (hn : Unambiguous (scene.Extends s) n) {c : Command} (hc : scene.VerbKnown c) :
    Lists (scene.Asked s) (scene.commandsAt n c) (Derives (scene.Extends s) n c) := by
  induction hn generalizing c with
  | @node slot complete children _ apart ih =>
    have hbelow : ∀ next, scene.Extends s slot c next →
        Lists (scene.Asked s) (scene.commandsBelow children next) fun found =>
          ∃ n ∈ children, Derives (scene.Extends s) n next found := by
      intro next hnext
      exact lists_commandsBelow (fun n hn => ih n hn (hnext.verbKnown hc)) apart
    rw [Scene.commandsAt]
    refine ((hs.extend hd hc slot).flatten (fun next hnext => lists_completed (hbelow next hnext))
      fun next next' found hnext hnext' hQ hQ' => ?_).congr fun found => derives_node_iff.symm
    obtain ⟨ps, hps⟩ := begins_of_completed hQ
    obtain ⟨ps', hps'⟩ := begins_of_completed hQ'
    exact eq_of_parts_append_eq hnext.eq_push hnext'.eq_push (hps.symm.trans hps')

theorem not_derives_preposition {complete complete' : Bool} {children children' : List Node}
    {c found : Command}
    (h : Derives (scene.Extends s) (.node .modifier complete children) c found) :
    ¬ Derives (scene.Extends s) (.node .preposition complete' children') c found := by
  intro h'
  obtain ⟨next, ps, hnext, hps⟩ := h.begins
  obtain ⟨next', ps', hnext', hps'⟩ := h'.begins
  have heq := eq_of_parts_append_eq hnext.eq_push hnext'.eq_push (hps.symm.trans hps')
  cases hnext with
  | modifier =>
    cases hnext' with
    | preposition => simp [Command.withModifier, Command.withPreposition] at heq

theorem not_derives_transitive {c found : Command}
    (h : Derives (scene.Extends s) Grammar.intransitive c found) :
    ¬ Derives (scene.Extends s) Grammar.transitive c found := by
  intro h'
  obtain ⟨next, hnext, h⟩ := derives_node_iff.mp h
  obtain ⟨next', hnext', ⟨hfalse, _⟩ | ⟨n, hn, h'⟩⟩ := derives_node_iff.mp h'
  · cases hfalse
  cases List.mem_singleton.mp hn
  obtain ⟨next₂, ps, hnext₂, hparts⟩ := h'.begins
  cases hnext with
  | @intransitiveVerb _ v =>
    cases hnext' with
    | @transitiveVerb _ v' =>
      cases hnext₂ with
      | @directObject _ _ e =>
        obtain ⟨p, hp, hobject⟩ := Command.withObject_eq_push e.id (c.withVerb v')
        rw [hobject] at hparts
        rcases h with ⟨_, rfl⟩ | ⟨n, hn, h⟩
        · simp [Command.withVerb, Command.push] at hparts
        · cases List.mem_singleton.mp hn
          cases h.grows with
          | modifier =>
            simp [Command.withVerb, Command.withModifier, Command.push] at hparts
            obtain ⟨_, rfl, _⟩ := hparts
            cases hp

theorem unambiguous_leaf {grows : Slot → Command → Command → Prop} (slot : Slot) (complete : Bool) :
    Unambiguous grows (.node slot complete []) :=
  .node (by simp) List.Pairwise.nil

theorem unambiguous_single {grows : Slot → Command → Command → Prop} {n : Node}
    (h : Unambiguous grows n) (slot : Slot) (complete : Bool) :
    Unambiguous grows (.node slot complete [n]) :=
  .node (by simpa using h) (List.pairwise_singleton _ n)

theorem unambiguous_roots : ∀ n ∈ Grammar.roots, Unambiguous (scene.Extends s) n := by
  have hpreposition : Unambiguous (scene.Extends s)
      (.node .preposition false [.node .indirectObject true []]) :=
    unambiguous_single (unambiguous_leaf _ _) _ _
  have hobject : Unambiguous (scene.Extends s) (.node .directObject true
      [Grammar.modifierNode, .node .preposition false [.node .indirectObject true []]]) := by
    refine .node ?_ ?_
    · intro n hn
      rcases List.mem_pair.mp hn with rfl | rfl
      · exact unambiguous_leaf _ _
      · exact hpreposition
    · exact List.pairwise_pair.mpr fun c found h => not_derives_preposition h
  intro n hn
  rcases List.mem_pair.mp hn with rfl | rfl
  · exact unambiguous_single (unambiguous_leaf _ _) _ _
  · exact unambiguous_single hobject _ _

/-- The commands that the verbs, their declarations and what the entities offer allow. -/
inductive Available (scene : Scene) (s : Store) : Command → Prop
  | alone {v : Verb} (hv : v ∈ Dictionary.values scene.verbs) (hi : v.isIntransitive = true) :
      Available scene s ⟨[.verb v]⟩
  | modified {v : Verb} {kind value : String} (hv : v ∈ Dictionary.values scene.verbs)
      (hi : v.isIntransitive = true) (hk : kind ∈ v.modifiers) (hm : scene.Contributes kind value) :
      Available scene s ⟨[.verb v, .modifier kind value]⟩
  | object {v : Verb} {d : Entity} (hv : v ∈ Dictionary.values scene.verbs)
      (ht : v.isTransitive = true) (hc : scene.IsCandidate .direct v d)
      (ho : d.IsOffered s v.id none) : Available scene s ⟨[.verb v, .directObject d.id]⟩
  | objectModified {v : Verb} {d : Entity} {kind value : String}
      (hv : v ∈ Dictionary.values scene.verbs) (ht : v.isTransitive = true)
      (hc : scene.IsCandidate .direct v d) (ho : d.IsOffered s v.id none) (hk : kind ∈ v.modifiers)
      (hm : scene.Contributes kind value) :
      Available scene s ⟨[.verb v, .directObject d.id, .modifier kind value]⟩
  | indirect {v : Verb} {d i : Entity} {word : String} (hv : v ∈ Dictionary.values scene.verbs)
      (ht : v.isTransitive = true) (hc : scene.IsCandidate .direct v d)
      (ho : d.IsOffered s v.id none) (hw : word ∈ v.prepositions)
      (hi : scene.IsCandidate .indirect v i) (hne : i.id ≠ d.id)
      (hio : i.IsOffered s v.id (some word)) :
      Available scene s ⟨[.verb v, .directObject d.id, .preposition word, .indirectObject i.id]⟩

theorem available_of_intransitive {found : Command}
    (h : Derives (scene.Extends s) Grammar.intransitive .empty found) : scene.Available s found := by
  cases h with
  | last h =>
    cases h with
    | intransitiveVerb hv hi => exact .alone hv hi
  | step h hc hd =>
    cases List.mem_singleton.mp hc
    cases h with
    | intransitiveVerb hv hi =>
      cases hd.grows with
      | modifier hv' hk hm =>
        cases hv'
        exact .modified hv hi hk hm

theorem available_of_transitive {found : Command}
    (h : Derives (scene.Extends s) Grammar.transitive .empty found) : scene.Available s found := by
  cases h with
  | step h hc hd =>
    cases List.mem_singleton.mp hc
    cases h with
    | transitiveVerb hv ht =>
      cases hd with
      | last h =>
        cases h with
        | directObject hv' he ho =>
          cases hv'
          exact .object hv ht he ho
      | step h hc hd =>
        cases h with
        | directObject hv' he ho =>
          cases hv'
          rcases List.mem_pair.mp hc with rfl | rfl
          · cases hd.grows with
            | modifier hv' hk hm =>
              cases hv'
              exact .objectModified hv ht he ho hk hm
          · cases hd with
            | step h hc hd =>
              cases List.mem_singleton.mp hc
              cases h with
              | preposition hv' hw =>
                cases hv'
                cases hd.grows with
                | indirectObject hv' hw' hi hne hio =>
                  cases hv'
                  cases hw'
                  exact .indirect hv ht he ho hw hi (fun h => hne (by rw [h]; rfl)) hio

theorem Available.derives {found : Command} (h : scene.Available s found) :
    ∃ n ∈ Grammar.roots, Derives (scene.Extends s) n .empty found := by
  have hin : Grammar.intransitive ∈ Grammar.roots := List.mem_cons_self
  have htr : Grammar.transitive ∈ Grammar.roots := List.mem_cons_of_mem _ List.mem_cons_self
  cases h with
  | alone hv hi => exact ⟨_, hin, .last (.intransitiveVerb hv hi)⟩
  | modified hv hi hk hm =>
    exact ⟨_, hin, .step (.intransitiveVerb hv hi) List.mem_cons_self (.last (.modifier rfl hk hm))⟩
  | object hv ht hc ho =>
    exact ⟨_, htr, .step (.transitiveVerb hv ht) List.mem_cons_self
      (.last (.directObject rfl hc ho))⟩
  | objectModified hv ht hc ho hk hm =>
    exact ⟨_, htr, .step (.transitiveVerb hv ht) List.mem_cons_self
      (.step (.directObject rfl hc ho) List.mem_cons_self (.last (.modifier rfl hk hm)))⟩
  | @indirect v d i word hv ht hc ho hw hi hne hio =>
    have hne' : (⟨[.verb v, .directObject d.id, .preposition word]⟩ : Command).object? .direct ≠
        some i.id := fun h => hne (Option.some.inj h).symm
    exact ⟨_, htr, .step (.transitiveVerb hv ht) List.mem_cons_self
      (.step (.directObject rfl hc ho) (List.mem_cons_of_mem _ List.mem_cons_self)
        (.step (.preposition rfl hw) List.mem_cons_self (.last (.indirectObject rfl rfl hi hne' hio))))⟩

/-- The enumeration gives the available commands, each of them once, and leaves the store as it was but
for the next mark. -/
theorem commands_lists_available (hs : scene.ConditionsResolve s) (hd : scene.Distinct) :
    ∃ found t, runOn scene.commands s = (.ok found, t) ∧ scene.Asked s t ∧ s.UpToMarks t ∧
      found.Nodup ∧ ∀ c, c ∈ found ↔ scene.Available s c := by
  have hknown : scene.VerbKnown .empty := by
    intro v hv
    cases hv
  have hroots := lists_commandsBelow (c := .empty)
    (fun n hn => lists_commandsAt hs hd (unambiguous_roots n hn) hknown)
    (List.pairwise_pair.mpr fun c found h => not_derives_transitive h)
  obtain ⟨found, hfound, hnodup, hmem⟩ := hroots
  obtain ⟨t, ht, hrun⟩ := hfound.exists_runOn .start
  refine ⟨found, t, hrun, ht, (hs.keep t ht).1, hnodup, fun c => (hmem c).trans ⟨?_, Available.derives⟩⟩
  rintro ⟨n, hn, h⟩
  rcases List.mem_pair.mp hn with rfl | rfl
  · exact available_of_intransitive h
  · exact available_of_transitive h

def look : Verb :=
  (Verb.new "look").withModifier "manner"

def trade : Verb :=
  (Verb.new "trade").withTrait .transitive |>.withPreposition "for" |>.withModifier "manner"

/-- The coin can be traded while it is the property of the player. -/
def coin : Entity :=
  Entity.new "coin" |>.withModifier "manner" "fairly"
    |>.withVerb ((Offer.ofDeclaration "trade").withCondition (acceptedIf "accept({mine: mine}) && mine" "mine"))

def lamp : Entity :=
  Entity.new "lamp" |>.withVerb (Offer.ofDeclaration "trade.for")

/-- A second entity with the id of the lamp, in a later group. -/
def hiddenLamp : Entity :=
  Entity.new "lamp" |>.withModifier "manner" "secretly" |>.withVerb (Offer.ofDeclaration "trade")

def market : Scene :=
  (Scene.new (VerbTable.ofVerbs [trade, look])).add "shelf" lamp |>.add "store" hiddenLamp
    |>.add "purse" coin

def ownCoin : Store :=
  { (Store.new 0 Store.defaultMaxCalls).insertEntity "coin" [("mine", .bool true)] with
    globals := [("accept", .function accepting)]
    nextIdentity := 1 }

/-- Only the condition of the coin takes a mark. -/
theorem runOn_stands_market (n : Nat) {e : Entity} (he : e ∈ market.groups.values) {o : Offer}
    (ho : o ∈ e.verbs) : ∃ n', n ≤ n' ∧
      runOn (o.stands e.id) { ownCoin with nextIdentity := n } =
        (.ok true, { ownCoin with nextIdentity := n' }) := by
  have hvalues : market.groups.values = [coin, lamp, hiddenLamp] := rfl
  rw [hvalues] at he
  simp only [List.mem_cons, List.not_mem_nil, or_false] at he
  rcases he with rfl | rfl | rfl
  · cases List.mem_singleton.mp ho
    exact ⟨n + 1, Nat.le_succ n, rfl⟩
  · cases List.mem_singleton.mp ho
    exact ⟨n, Nat.le_refl n, rfl⟩
  · cases List.mem_singleton.mp ho
    exact ⟨n, Nat.le_refl n, rfl⟩

theorem conditionsResolve_market : market.ConditionsResolve ownCoin where
  keep := by
    refine conditionsKeep_of_marks fun e he o ho n _ => ?_
    obtain ⟨n', hn', hrun⟩ := runOn_stands_market n he ho
    obtain ⟨_, _, hfirst⟩ := runOn_stands_market ownCoin.nextIdentity he ho
    exact ⟨by rw [hrun, hfirst], n', hn', by rw [hrun]⟩
  resolve e he o ho := by
    obtain ⟨_, _, hfirst⟩ := runOn_stands_market ownCoin.nextIdentity he ho
    exact ⟨true, by rw [hfirst]⟩

theorem distinct_market : market.Distinct where
  byId := VerbTable.byId_ofVerbs [trade, look]
  prepositions := by decide
  modifiers := by decide

def marketCommands : List Command :=
  [⟨[.verb look]⟩, ⟨[.verb look, .modifier "manner" "fairly"]⟩,
    ⟨[.verb trade, .directObject "coin"]⟩,
    ⟨[.verb trade, .directObject "coin", .modifier "manner" "fairly"]⟩,
    ⟨[.verb trade, .directObject "coin", .preposition "for", .indirectObject "lamp"]⟩]

theorem commands_market : (runOn market.commands ownCoin).1 = .ok marketCommands := by
  rfl

/-- What the hidden lamp offers and contributes is not available. -/
theorem commands_lists_market : market.ConditionsResolve ownCoin ∧ market.Distinct ∧
    marketCommands.Nodup ∧ ∀ c, c ∈ marketCommands ↔ market.Available ownCoin c := by
  obtain ⟨found, t, hrun, _, _, hnodup, hmem⟩ :=
    commands_lists_available conditionsResolve_market distinct_market
  have hfound : found = marketCommands := by
    have h := commands_market
    rw [hrun] at h
    exact Except.ok.inj h
  subst hfound
  exact ⟨conditionsResolve_market, distinct_market, hnodup, hmem⟩

end Scene

end TextAdventure
