import TextAdventure.Action
import TextAdventure.Proofs.Rule.Keys
import TextAdventure.Proofs.Rule.WellFormed

/-! # Where rules fail to compile

Compiling a rule stops at the first part that is at fault, and the error is reported at the path of
this part. The steps from the rule to the part are the steps that the path takes after the path of the
rule: a number for an item of a list, the name of a component for an entry of a map. What is wrong with
the part can be seen without compiling the parts inside it.
-/
namespace TextAdventure

namespace Error

variable {α β : Type} {x : Except Error α} {e : Error}

/-- The declared path that an error is reported at. -/
def source? (e : Error) : Option String :=
  e.context.bind ErrorContext.source

@[simp] theorem source?_atPath (path : String) (e : Error) :
    (e.atPath path).source? = some path := by
  cases e <;> rfl

/-- The declared path of the error, if there is one. -/
def failurePath (x : Except Error α) : Option String :=
  match x with
  | .ok _ => none
  | .error e => e.source?

theorem failurePath_eq_some_iff {path : String} :
    failurePath x = some path ↔ ∃ e, x = .error e ∧ e.source? = some path := by
  cases x <;> simp [failurePath]

theorem bind_eq_error_iff {f : α → Except Error β} :
    x >>= f = .error e ↔ x = .error e ∨ ∃ a, x = .ok a ∧ f a = .error e := by
  cases x with
  | error cause => simp [bind, Except.bind]
  | ok a => simp [bind, Except.bind]

theorem map_eq_error_iff {f : α → β} : x.map f = .error e ↔ x = .error e := by
  cases x with
  | error cause => simp [Except.map]
  | ok a => simp [Except.map]

theorem reportAt_eq_error_iff {path : String} :
    reportAt path x = .error e ↔ ∃ cause, x = .error cause ∧ cause.atPath path = e := by
  cases x with
  | error cause => simp [reportAt, Except.mapError]
  | ok a => simp [reportAt, Except.mapError]

end Error

namespace Dictionary

theorem get?_append_cons_self {α : Type u} {key : String} {d : Dictionary α} (h : key ∉ keys d)
    (value : α) (rest : Dictionary α) : get? key (d ++ (key, value) :: rest) = some value := by
  induction d with
  | nil => simp [get?]
  | cons entry d ih =>
    obtain ⟨k, v⟩ := entry
    rw [keys, List.map_cons, List.mem_cons, not_or] at h
    rw [List.cons_append, get?, if_neg (Ne.symm h.1)]
    exact ih h.2

end Dictionary

namespace Rule

variable {path key : String} {v part : Value} {rule : Rule} {parts : Components} {e : Error}
  {entries done : List (String × Value)}

theorem Components.freeSlot_eq_error_iff : parts.freeSlot key = .error e ↔
    Slot.ofKey? key = none ∧ .ofFault (.unknownComponent key) = e ∨
      ∃ slot existing component, key ∈ slot.keys ∧ parts.get slot = some (existing, component) ∧
        .ofFault (.duplicateComponent slot.name existing) = e := by
  simp only [← Slot.ofKey?_eq_some_iff]
  rw [freeSlot]
  cases Slot.ofKey? key with
  | none => simp
  | some slot =>
    cases hget : parts.get slot with
    | none => simp [hget]
    | some held => simp [hget, Prod.ext_iff]

theorem Components.rule_eq_error_iff : parts.rule = .error e ↔
    parts.get .condition = none ∧ parts.get .action = none ∧
      .ofFault (.invalidRule "rule has no condition or action") = e := by
  obtain ⟨condition, action, alternative⟩ := parts
  cases condition with
  | some condition => simp [Components.rule, get]
  | none => cases action <;> simp [Components.rule, get]

theorem someItems_eq_error_iff : someItems key rule = .error e ↔
    rule.items = [] ∧ .ofFault (.invalidRule (key ++ " needs at least one rule")) = e := by
  unfold someItems
  by_cases hempty : rule.items = []
  · simp [hempty]
  · simp [hempty, List.isEmpty_iff]

theorem ofComponent_eq_error_iff : ofComponent key path rule = .error e ↔
    key ∈ ["repeat", "random"] ∧ rule.items = [] ∧
      .ofFault (.invalidRule (key ++ " needs at least one rule")) = e := by
  unfold ofComponent
  by_cases hswitch : key = "switch"
  · simp [hswitch]
  by_cases hrepeat : key = "repeat"
  · rw [if_neg hswitch, if_pos hrepeat, Error.map_eq_error_iff, someItems_eq_error_iff]
    simp [hrepeat]
  by_cases hrandom : key = "random"
  · rw [if_neg hswitch, if_neg hrepeat, if_pos hrandom, Error.map_eq_error_iff,
      someItems_eq_error_iff]
    simp [hrandom]
  · rw [if_neg hswitch, if_neg hrepeat, if_neg hrandom]
    by_cases honce : key = "once" <;> simp [honce, hrepeat, hrandom]

/-- The error of a value that is at fault itself, whatever the parts inside it. -/
inductive AtFault : Value → Error → Prop
  | script {text : String} {e : Error} (hline : text.toList.head? ≠ some '$')
      (h : Script.compile text = .error e) : AtFault (.string text) e
  | unknown {layout : Layout} {entries : List (String × Value)} {key : String}
      (hkey : key ∈ Dictionary.keys entries) (h : ∀ slot : Slot, key ∉ slot.keys) :
      AtFault (.map layout entries) (.ofFault (.unknownComponent key))
  /-- The second key of a part of the rule is the one that is refused. -/
  | duplicate {layout : Layout} {entries : List (String × Value)} {slot : Slot}
      {existing key : String} (h : [existing, key].Sublist (Dictionary.keys entries))
      (hexisting : existing ∈ slot.keys) (hkey : key ∈ slot.keys) :
      AtFault (.map layout entries) (.ofFault (.duplicateComponent slot.name existing))
  | noItems {layout : Layout} {entries : List (String × Value)} {key : String}
      (hkey : key ∈ ["repeat", "random"]) (h : (key, .list []) ∈ entries) :
      AtFault (.map layout entries)
        (.ofFault (.invalidRule (key ++ " needs at least one rule")))
  | noRule {layout : Layout} {entries : List (String × Value)}
      (h : ∀ key ∈ Dictionary.keys entries, key ∉ Slot.condition.keys ∧ key ∉ Slot.action.keys) :
      AtFault (.map layout entries) (.ofFault (.invalidRule "rule has no condition or action"))

theorem AtFault.not_wellFormed (h : AtFault part e) : ¬ WellFormed part := by
  intro hpart
  cases h with
  | script hline h =>
    obtain ⟨rule, hrule⟩ := exists_ofString_iff.mpr hpart
    unfold ofString at hrule
    split at hrule
    next htext => exact hline (by rw [htext]; rfl)
    next =>
      rw [h] at hrule
      cases hrule
  | unknown hkey h =>
    obtain ⟨entry, hentry, rfl⟩ := List.mem_map.mp hkey
    cases hpart with
    | map hparts _ =>
      obtain ⟨slot, hslot⟩ := hparts.known entry hentry
      exact h slot hslot
  | @duplicate layout entries slot existing key h hexisting hkey =>
    cases hpart with
    | map hparts _ =>
      have hone := hparts.atMostOne slot
      have htwo : [existing, key].countP (· ∈ slot.keys) = 2 := by simp [hexisting, hkey]
      have hle : [existing, key].countP (· ∈ slot.keys) ≤ entries.countP (·.1 ∈ slot.keys) := by
        have hkeys := h.countP_le (p := fun name => decide (name ∈ slot.keys))
        rwa [Dictionary.keys, List.countP_map] at hkeys
      omega
  | noItems hkey h =>
    cases hpart with
    | map hparts _ => exact hparts.hasItems _ h hkey rfl
  | noRule h =>
    cases hpart with
    | map hparts _ =>
      obtain ⟨entry, hentry, hkey⟩ := hparts.hasRule
      have hno := h entry.1 (List.mem_map_of_mem hentry)
      exact hkey.elim hno.1 hno.2

theorem atFault_of_ofString {text : String} (h : ofString text = .error e) :
    AtFault (.string text) e := by
  unfold ofString at h
  split at h
  next => cases h
  next hline =>
    refine .script ?_ (Error.map_eq_error_iff.mp h)
    intro hhead
    obtain ⟨rest, htext⟩ := List.head?_eq_some_iff.mp hhead
    exact hline rest htext

/-- A step from a value to a part of it. -/
inductive Step where
  | item (i : Nat)
  | component (key : String)
  deriving DecidableEq, Repr

namespace Step

/-- What the step adds to a path. -/
def segment : Step → String
  | item i => Number.naturalText i
  | component key => key

/-- The part that the step comes to, if the value has it. -/
def target? : Step → Value → Option Value
  | item i, .list values => values[i]?
  | component key, .map _ entries =>
    if (Slot.ofKey? key).isSome then Dictionary.get? key entries else none
  | _, _ => none

end Step

/-- The part that steps lead to, one after the other. -/
def part? : List Step → Value → Option Value
  | [], v => some v
  | step :: steps, v => (step.target? v).bind (part? steps)

/-- The path with the segments of steps after it. -/
def pathAlong (path : String) (steps : List Step) : String :=
  path ++ String.join (steps.map fun step => "/" ++ step.segment)

@[simp] theorem pathAlong_nil (path : String) : pathAlong path [] = path :=
  String.append_empty

theorem pathAlong_cons (path : String) (step : Step) (steps : List Step) :
    pathAlong path (step :: steps) = pathAlong (partPath path step.segment) steps := by
  simp [pathAlong, partPath, String.append_assoc]

theorem toList_pathAlong_cons (path : String) (step : Step) (steps : List Step) :
    ∃ rest, (pathAlong path (step :: steps)).toList =
      path.toList ++ '/' :: (step.segment.toList ++ rest) ∧ ∀ c ∈ rest.head?, c = '/' := by
  rw [pathAlong, List.map_cons]
  refine ⟨(String.join (steps.map fun step => "/" ++ step.segment)).toList, ?_, ?_⟩
  · simp [String.toList_append]
  · cases steps with
    | nil => simp
    | cons next steps => simp [String.toList_append]

theorem stepAfter_pathAlong {step : Step} (h : IsStep step.segment) (path : String)
    (steps : List Step) : stepAfter path (pathAlong path (step :: steps)) = step.segment := by
  obtain ⟨rest, hlist, hrest⟩ := toList_pathAlong_cons path step steps
  exact stepAfter_eq h hrest hlist

theorem ne_pathAlong_cons (path : String) (step : Step) (steps : List Step) :
    path ≠ pathAlong path (step :: steps) := by
  intro h
  obtain ⟨rest, hlist, _⟩ := toList_pathAlong_cons path step steps
  rw [← h] at hlist
  have hlength := congrArg List.length hlist
  rw [List.length_append, List.length_cons] at hlength
  omega

namespace Step

variable {step other : Step} {inner : Value}

theorem isStep_segment (h : step.target? v = some part) : IsStep step.segment := by
  cases step with
  | item i => exact isStep_naturalText i
  | component key =>
    cases v with
    | map layout entries =>
      rw [target?] at h
      split at h
      next hkey =>
        obtain ⟨slot, hslot⟩ := Option.isSome_iff_exists.mp hkey
        exact isStep_of_mem_keys (Slot.ofKey?_eq_some_iff.mp hslot)
      next => cases h
    | _ => cases h

theorem eq_of_segment_eq (h : step.target? v = some part) (hother : other.target? v = some inner)
    (heq : step.segment = other.segment) : step = other := by
  cases step with
  | item i =>
    cases other with
    | item j => rw [naturalText_injective heq]
    | component key => cases v <;> first | cases h | cases hother
  | component key =>
    cases other with
    | item i => cases v <;> first | cases h | cases hother
    | component name => exact congrArg component heq

end Step

/-- A path leads to one part of a value only. -/
theorem steps_eq_of_pathAlong_eq {steps others : List Step} {inner : Value}
    (h : part? steps v = some part) (hothers : part? others v = some inner)
    (heq : pathAlong path steps = pathAlong path others) : steps = others := by
  induction steps generalizing path v others with
  | nil =>
    cases others with
    | nil => rfl
    | cons other others =>
      rw [pathAlong_nil] at heq
      exact absurd heq (ne_pathAlong_cons path other others)
  | cons step steps ih =>
    cases others with
    | nil =>
      rw [pathAlong_nil] at heq
      exact absurd heq.symm (ne_pathAlong_cons path step steps)
    | cons other others =>
      obtain ⟨w, hw, h⟩ := Option.bind_eq_some_iff.mp h
      obtain ⟨w', hw', hothers⟩ := Option.bind_eq_some_iff.mp hothers
      have hsegment : step.segment = other.segment := by
        rw [← stepAfter_pathAlong (Step.isStep_segment hw) path steps, heq,
          stepAfter_pathAlong (Step.isStep_segment hw')]
      obtain rfl := Step.eq_of_segment_eq hw hw' hsegment
      rw [hw, Option.some.injEq] at hw'
      subst hw'
      rw [pathAlong_cons, pathAlong_cons] at heq
      rw [ih h hothers heq]

/-- The error is that of a part that is at fault, reported at the path of the part. -/
def Blamed (path : String) (v : Value) (e : Error) : Prop :=
  ∃ steps part cause, e.source? = some (pathAlong path steps) ∧ part? steps v = some part ∧
    AtFault part cause ∧ e = cause.atPath (pathAlong path steps)

theorem AtFault.blamed (h : AtFault v e) (path : String) : Blamed path v (e.atPath path) := by
  refine ⟨[], v, e, ?_, rfl, h, ?_⟩
  · rw [pathAlong_nil, Error.source?_atPath]
  · rw [pathAlong_nil]

theorem Blamed.ofPart (step : Step) (h : Blamed (partPath path step.segment) part e)
    (hpart : step.target? v = some part) : Blamed path v e := by
  obtain ⟨steps, inner, cause, hsource, hinner, hfault, he⟩ := h
  refine ⟨step :: steps, inner, cause, ?_, ?_, hfault, ?_⟩
  · rw [pathAlong_cons, hsource]
  · rw [part?, hpart]
    exact hinner
  · rw [pathAlong_cons, he]

/-- The error is reported at the path of one part only, and this part is not well-formed. -/
def NamesPart (path : String) (v : Value) (e : Error) : Prop :=
  ∃ steps part, e.source? = some (pathAlong path steps) ∧ part? steps v = some part ∧
    ¬ WellFormed part ∧ ∀ others other, e.source? = some (pathAlong path others) →
      part? others v = some other → others = steps

theorem Blamed.namesPart (h : Blamed path v e) : NamesPart path v e := by
  obtain ⟨steps, part, cause, hsource, hpart, hfault, _⟩ := h
  refine ⟨steps, part, hsource, hpart, hfault.not_wellFormed, ?_⟩
  intro others other hothers hother
  rw [hsource, Option.some.injEq] at hothers
  exact steps_eq_of_pathAlong_eq hother hpart hothers.symm

/-- Each part is filled by the first of the entries that plays it. -/
def Filling (done : List (String × Value)) (parts : Components) : Prop :=
  ∀ slot, (parts.get slot).map Prod.fst = (Dictionary.keys done).find? (· ∈ slot.keys)

theorem filling_empty : Filling [] .empty := by
  intro slot
  cases slot <;> rfl

namespace Filling

theorem not_mem_keys {slot : Slot} (h : Filling done parts) (hfree : parts.get slot = none) :
    ∀ key ∈ Dictionary.keys done, key ∉ slot.keys := by
  have hnone := h slot
  rw [hfree, Option.map_none, eq_comm, List.find?_eq_none] at hnone
  simpa using hnone

theorem mem_keys {slot : Slot} {component : Rule} (h : Filling done parts)
    (hget : parts.get slot = some (key, component)) :
    key ∈ slot.keys ∧ key ∈ Dictionary.keys done := by
  have hsome := h slot
  rw [hget, Option.map_some, eq_comm] at hsome
  exact ⟨by simpa using List.find?_some hsome, List.mem_of_find?_eq_some hsome⟩

theorem set {slot : Slot} (h : Filling done parts) (hkey : key ∈ slot.keys)
    (hfree : parts.get slot = none) (v : Value) (component : Rule) :
    Filling (done ++ [(key, v)]) (parts.set slot key component) := by
  intro other
  have hother : key ∈ other.keys ↔ other = slot := by
    rw [← Slot.ofKey?_eq_some_iff, Slot.ofKey?_eq_some_iff.mpr hkey, Option.some.injEq, eq_comm]
  have hdone := h other
  rw [Dictionary.keys] at hdone ⊢
  rw [List.map_append, List.find?_append, ← hdone]
  by_cases heq : other = slot
  · subst heq
    simp [hfree, hkey]
  · rw [Components.get_set_of_ne heq]
    simp [hother, heq]

end Filling

theorem filling_ofEntries {rest : List (String × Value)} {whole : Components}
    (hparts : Filling done parts) (h : ofEntries path parts rest = .ok whole) :
    Filling (done ++ rest) whole := by
  induction rest generalizing done parts with
  | nil =>
    rw [ofEntries] at h
    cases h
    rwa [List.append_nil]
  | cons entry rest ih =>
    obtain ⟨key, v⟩ := entry
    obtain ⟨slot, rule, component, ⟨hkey, hfree⟩, _, _, hrest⟩ := ofEntries_cons_eq_ok_iff.mp h
    rw [List.append_cons]
    exact ih (hparts.set hkey hfree v component) hrest

theorem atFault_of_rule {layout : Layout} (hparts : Filling entries parts)
    (h : parts.rule = .error e) : AtFault (.map layout entries) e := by
  obtain ⟨hcondition, haction, rfl⟩ := Components.rule_eq_error_iff.mp h
  refine .noRule fun key hkey => ⟨?_, ?_⟩
  · exact hparts.not_mem_keys hcondition key hkey
  · exact hparts.not_mem_keys haction key hkey

theorem atFault_of_freeSlot {layout : Layout} {rest : List (String × Value)}
    (hparts : Filling done parts) (h : parts.freeSlot key = .error e) :
    AtFault (.map layout (done ++ (key, v) :: rest)) e := by
  have hkeys : Dictionary.keys (done ++ (key, v) :: rest) =
      Dictionary.keys done ++ key :: Dictionary.keys rest := by simp [Dictionary.keys]
  rcases Components.freeSlot_eq_error_iff.mp h with
    ⟨hnone, rfl⟩ | ⟨slot, existing, component, hkey, hget, rfl⟩
  · refine .unknown (by simp [hkeys]) fun slot hslot => ?_
    rw [Slot.ofKey?_eq_some_iff.mpr hslot] at hnone
    cases hnone
  · obtain ⟨hexisting, hdone⟩ := hparts.mem_keys hget
    refine .duplicate ?_ hexisting hkey
    rw [hkeys]
    have hfirst := List.singleton_sublist.mpr hdone
    have hsecond : [key].Sublist (key :: Dictionary.keys rest) :=
      List.singleton_sublist.mpr List.mem_cons_self
    exact hfirst.append hsecond

theorem atFault_of_ofComponent {layout : Layout} {rest : List (String × Value)} {rulePath : String}
    (hrule : ofValue rulePath v = .ok rule) (h : ofComponent key path rule = .error e) :
    AtFault (.map layout (done ++ (key, v) :: rest)) e := by
  obtain ⟨hkey, hitems, rfl⟩ := ofComponent_eq_error_iff.mp h
  rw [items_eq_nil_iff hrule] at hitems
  subst hitems
  exact .noItems hkey (by simp)

theorem target?_component {layout : Layout} {rest : List (String × Value)} {slot : Slot}
    (hparts : Filling done parts) (hkey : key ∈ slot.keys) (hfree : parts.get slot = none) :
    (Step.component key).target? (.map layout (done ++ (key, v) :: rest)) = some v := by
  have hnew : key ∉ Dictionary.keys done := fun hdone => hparts.not_mem_keys hfree key hdone hkey
  rw [Step.target?, Slot.ofKey?_eq_some_iff.mpr hkey]
  exact Dictionary.get?_append_cons_self hnew v rest

mutual

theorem blamed_of_ofValue {path : String} {e : Error} :
    ∀ v : Value, ofValue path v = .error e → Blamed path v e
  | .string text, h => by
    rw [ofValue] at h
    obtain ⟨cause, hcause, rfl⟩ := Error.reportAt_eq_error_iff.mp h
    exact (atFault_of_ofString hcause).blamed path
  | .list values, h => by
    rw [ofValue] at h
    rcases Error.bind_eq_error_iff.mp h with hvalues | ⟨rules, _, h⟩
    · obtain ⟨j, v, hv, hblamed⟩ := blamed_of_ofValues 0 values hvalues
      rw [Nat.zero_add] at hblamed
      exact Blamed.ofPart (.item j) hblamed hv
    · cases h
  | .map layout entries, h => by
    rw [ofValue] at h
    rcases Error.bind_eq_error_iff.mp h with hentries | ⟨parts, hparts, hrule⟩
    · exact blamed_of_ofEntries layout [] .empty filling_empty entries hentries
    · obtain ⟨cause, hcause, rfl⟩ := Error.reportAt_eq_error_iff.mp hrule
      exact (atFault_of_rule (filling_ofEntries filling_empty hparts) hcause).blamed path
  | .nil, h => by cases h
  | .bool b, h => by cases h
  | .int n, h => by cases h
  | .float x, h => by cases h
  | .entity id, h => by cases h
  | .function f, h => by cases h

theorem blamed_of_ofValues {path : String} {e : Error} (i : Nat) :
    ∀ vs : List Value, ofValues path i vs = .error e →
      ∃ j v, vs[j]? = some v ∧ Blamed (partPath path (Number.naturalText (i + j))) v e
  | [], h => by cases h
  | v :: vs, h => by
    rw [ofValues] at h
    rcases Error.bind_eq_error_iff.mp h with hv | ⟨rule, _, h⟩
    · exact ⟨0, v, rfl, blamed_of_ofValue v hv⟩
    · rcases Error.bind_eq_error_iff.mp h with hvs | ⟨rules, _, h⟩
      · obtain ⟨j, w, hw, hblamed⟩ := blamed_of_ofValues (i + 1) vs hvs
        rw [Nat.add_assoc, Nat.add_comm 1 j] at hblamed
        exact ⟨j + 1, w, hw, hblamed⟩
      · cases h

theorem blamed_of_ofEntries {path : String} {e : Error} (layout : Layout)
    (done : List (String × Value)) (parts : Components) (hparts : Filling done parts) :
    ∀ rest : List (String × Value), ofEntries path parts rest = .error e →
      Blamed path (.map layout (done ++ rest)) e
  | [], h => by cases h
  | (key, v) :: rest, h => by
    rw [ofEntries] at h
    rcases Error.bind_eq_error_iff.mp h with hslot | ⟨slot, hslot, h⟩
    · obtain ⟨cause, hcause, rfl⟩ := Error.reportAt_eq_error_iff.mp hslot
      exact (atFault_of_freeSlot hparts hcause).blamed path
    obtain ⟨hkey, hfree⟩ := Components.freeSlot_eq_ok_iff.mp (Error.reportAt_eq_ok_iff.mp hslot)
    rcases Error.bind_eq_error_iff.mp h with hv | ⟨rule, hrule, h⟩
    · have hblamed := blamed_of_ofValue v hv
      exact Blamed.ofPart (.component key) hblamed (target?_component hparts hkey hfree)
    rcases Error.bind_eq_error_iff.mp h with hcomponent | ⟨component, _, hrest⟩
    · obtain ⟨cause, hcause, rfl⟩ := Error.reportAt_eq_error_iff.mp hcomponent
      exact (atFault_of_ofComponent hrule hcause).blamed path
    · rw [List.append_cons]
      exact blamed_of_ofEntries layout _ _ (hparts.set hkey hfree v component) rest hrest

end

/-- Whatever fails to compile in a rule is reported at the path of the part that is at fault, and no other
part has this path. Of an action that is compiled with its pattern, the pattern is at fault, or a part of
the rule is. -/
theorem compile_errors_name_part (path : String) (v : Value) :
    (∀ e, ofValue path v = .error e → Blamed path v e ∧ NamesPart path v e) ∧
    ∀ verbs phase pattern e, Action.ofRule verbs phase path pattern v = .error e →
      (∃ rest, e.source? = some (path ++ rest)) ∧
        ((∃ cause, Pattern.compile verbs pattern = .error cause ∧ e = cause.atPath path) ∨
          Blamed path v e) := by
  refine ⟨fun e he => ⟨blamed_of_ofValue v he, (blamed_of_ofValue v he).namesPart⟩, ?_⟩
  intro verbs phase pattern e h
  rw [Action.ofRule] at h
  rcases Error.bind_eq_error_iff.mp h with hpattern | ⟨matcher, _, h⟩
  · obtain ⟨cause, hcause, rfl⟩ := Error.reportAt_eq_error_iff.mp hpattern
    refine ⟨⟨"", ?_⟩, .inl ⟨cause, hcause, rfl⟩⟩
    rw [Error.source?_atPath, String.append_empty]
  rcases Error.bind_eq_error_iff.mp h with hvalue | ⟨rule, _, h⟩
  · have hblamed := blamed_of_ofValue v hvalue
    refine ⟨?_, .inr hblamed⟩
    obtain ⟨steps, _, _, hsource, _⟩ := hblamed
    exact ⟨_, hsource⟩
  · cases h

/-- A rule of two rules, the second of which has a condition that breaks off. -/
def unfinished : Value :=
  .map .empty
    [("do", .list [.string "$fine", .map .empty [("when", .string "a +")]])]

theorem compile_errors_name_part_unfinished :
    (∃ e, ofValue "troll/actions/3" unfinished = .error e ∧
      Blamed "troll/actions/3" unfinished e ∧ e.source? = some "troll/actions/3/do/1/when") ∧
    ∃ e, Action.ofRule [("wait", .new "wait")] .main "troll/actions/3" "wait" unfinished = .error e ∧
      (∃ rest, e.source? = some ("troll/actions/3" ++ rest)) ∧
      e.source? = some "troll/actions/3/do/1/when" := by
  have hvalue : Error.failurePath (ofValue "troll/actions/3" unfinished) =
      some "troll/actions/3/do/1/when" := by decide +kernel
  have haction : Error.failurePath
      (Action.ofRule [("wait", .new "wait")] .main "troll/actions/3" "wait" unfinished) =
        some "troll/actions/3/do/1/when" := by decide +kernel
  obtain ⟨e, he, hsource⟩ := Error.failurePath_eq_some_iff.mp hvalue
  obtain ⟨e', he', hsource'⟩ := Error.failurePath_eq_some_iff.mp haction
  have hnames := compile_errors_name_part "troll/actions/3" unfinished
  exact ⟨⟨e, he, (hnames.1 e he).1, hsource⟩, e', he', (hnames.2 _ _ _ e' he').1, hsource'⟩

end Rule

end TextAdventure
