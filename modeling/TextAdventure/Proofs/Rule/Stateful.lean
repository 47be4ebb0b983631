import TextAdventure.Proofs.Rule.Progress
import TextAdventure.Proofs.Rule.WellFormed

/-! # Rules that keep progress

Cycles and rules that run once keep progress under a key. In a compiled rule they are components that
are compiled at their keys, and the keys are all below the path of the rule.
-/
namespace TextAdventure

namespace Rule

mutual

/-- The rules in a rule that keep progress, each with its key. -/
def stateful : Rule → List (String × Rule)
  | sequence rules => statefulIn rules
  | switch rules => statefulIn rules
  | choice rules => statefulIn rules
  | cycle key rules => (key, cycle key rules) :: statefulIn rules
  | once key body => (key, once key body) :: stateful body
  | branch condition yes no => stateful condition ++ (stateful yes ++ stateful no)
  | _ => []

def statefulIn : List Rule → List (String × Rule)
  | [] => []
  | rule :: rules => stateful rule ++ statefulIn rules

end

/-- The key is made of a path and parts after it. -/
def Below (path key : String) : Prop :=
  ∃ part, key = partPath path part

theorem Below.of_part {path part key : String} (h : Below (partPath path part) key) :
    Below path key := by
  obtain ⟨rest, rfl⟩ := h
  exact ⟨part ++ "/" ++ rest, by simp [partPath, String.append_assoc]⟩

theorem Below.ne {path key : String} (h : Below path key) : key ≠ path := by
  obtain ⟨part, rfl⟩ := h
  intro heq
  have hlength := congrArg String.length heq
  have hslash : "/".length = 1 := rfl
  rw [partPath, String.length_append, String.length_append, hslash] at hlength
  omega

/-- The rule that a component of a rule map is compiled to at a path of its own. -/
def componentOf (name path : String) (v : Value) : Except Error Rule := do
  let rule ← ofValue path v
  ofComponent name path rule

/-- The rules that keep progress are components compiled at their keys, all below some path. -/
def CompiledBelow (path : String) (ps : List (String × Rule)) : Prop :=
  ∀ p ∈ ps, Below path p.1 ∧ ∃ name ∈ ["repeat", "once"], ∃ v, componentOf name p.1 v = .ok p.2

namespace CompiledBelow

variable {path part : String} {ps qs : List (String × Rule)}

theorem of_part (h : CompiledBelow (partPath path part) ps) : CompiledBelow path ps :=
  fun p hp => ⟨(h p hp).1.of_part, (h p hp).2⟩

theorem append (hp : CompiledBelow path ps) (hq : CompiledBelow path qs) :
    CompiledBelow path (ps ++ qs) :=
  fun _ h => (List.mem_append.mp h).elim (hp _) (hq _)

end CompiledBelow

theorem compiledBelow_nil (path : String) : CompiledBelow path [] :=
  fun _ h => absurd h List.not_mem_nil

theorem mem_statefulIn_iff {rules : List Rule} {p : String × Rule} :
    p ∈ statefulIn rules ↔ ∃ rule ∈ rules, p ∈ rule.stateful := by
  induction rules with
  | nil => simp [statefulIn]
  | cons rule rules ih => simp [statefulIn, ih]

theorem statefulIn_items (rule : Rule) : statefulIn rule.items = rule.stateful := by
  cases rule <;> simp [items, stateful, statefulIn]

mutual

theorem stateful_of_mem {p : String × Rule} : ∀ rule : Rule, p ∈ rule.stateful →
    p ∈ p.2.stateful ∧ p.2.stateful.Sublist rule.stateful
  | .sequence rules, h => statefulIn_of_mem rules h
  | .switch rules, h => statefulIn_of_mem rules h
  | .choice rules, h => statefulIn_of_mem rules h
  | .cycle _ rules, h => by
    rcases List.mem_cons.mp h with rfl | h
    · exact ⟨List.mem_cons_self, .refl _⟩
    · exact (statefulIn_of_mem rules h).imp_right (.cons _)
  | .once _ body, h => by
    rcases List.mem_cons.mp h with rfl | h
    · exact ⟨List.mem_cons_self, .refl _⟩
    · exact (stateful_of_mem body h).imp_right (.cons _)
  | .branch condition yes no, h => by
    have hright := List.sublist_append_right condition.stateful (yes.stateful ++ no.stateful)
    rcases List.mem_append.mp h with h | h
    · exact (stateful_of_mem condition h).imp_right (·.trans (List.sublist_append_left _ _))
    rcases List.mem_append.mp h with h | h
    · have hyes := (List.sublist_append_left yes.stateful no.stateful).trans hright
      exact (stateful_of_mem yes h).imp_right (·.trans hyes)
    · have hno := (List.sublist_append_right yes.stateful no.stateful).trans hright
      exact (stateful_of_mem no h).imp_right (·.trans hno)

theorem statefulIn_of_mem {p : String × Rule} : ∀ rules : List Rule, p ∈ statefulIn rules →
    p ∈ p.2.stateful ∧ p.2.stateful.Sublist (statefulIn rules)
  | [], h => absurd h List.not_mem_nil
  | rule :: rules, h => by
    rcases List.mem_append.mp h with h | h
    · exact (stateful_of_mem rule h).imp_right (·.trans (List.sublist_append_left _ _))
    · exact (statefulIn_of_mem rules h).imp_right (·.trans (List.sublist_append_right _ _))

end

/-- A component that keeps progress keeps it under its path; all other progress in it is that of its
items. -/
theorem stateful_ofComponent {name path : String} {rule component : Rule}
    (h : ofComponent name path rule = .ok component) :
    component.stateful =
      (if name ∈ ["repeat", "once"] then [(path, component)] else []) ++ rule.stateful := by
  unfold ofComponent at h
  split at h
  next hname =>
    cases h
    rw [hname]
    exact statefulIn_items rule
  split at h
  next hname =>
    obtain ⟨rules, hitems, rfl⟩ := Error.map_eq_ok_iff.mp h
    obtain ⟨rfl, _⟩ := someItems_eq_ok_iff.mp hitems
    rw [hname, stateful, statefulIn_items]
    rfl
  split at h
  next hname =>
    obtain ⟨rules, hitems, rfl⟩ := Error.map_eq_ok_iff.mp h
    obtain ⟨rfl, _⟩ := someItems_eq_ok_iff.mp hitems
    rw [hname]
    exact statefulIn_items rule
  split at h
  next hname =>
    cases h
    rw [hname]
    rfl
  next hrepeat _ honce =>
    cases h
    have hname : name ∉ ["repeat", "once"] := by simp [hrepeat, honce]
    rw [if_neg hname, List.nil_append]

theorem stateful_ofString {text : String} {rule : Rule} (h : ofString text = .ok rule) :
    rule.stateful = [] := by
  unfold ofString at h
  split at h
  · cases h
    rfl
  · obtain ⟨s, _, rfl⟩ := Error.map_eq_ok_iff.mp h
    unfold ofScript
    split <;> rfl

namespace Components

variable {parts : Components} {slot : Slot}

def statefulAt (slot : Slot) (parts : Components) : List (String × Rule) :=
  (parts.get slot).toList.flatMap fun part => part.2.stateful

/-- The rules in the components of a rule map that keep progress. -/
def stateful (parts : Components) : List (String × Rule) :=
  parts.statefulAt .condition ++ (parts.statefulAt .action ++ parts.statefulAt .alternative)

theorem perm_stateful_set (h : parts.get slot = none) (key : String) (rule : Rule) :
    (parts.set slot key rule).stateful.Perm (parts.stateful ++ rule.stateful) := by
  have hself : (parts.set slot key rule).statefulAt slot = rule.stateful := by
    simp [statefulAt]
  have hfree : parts.statefulAt slot = [] := by simp [statefulAt, h]
  have hother : ∀ other, other ≠ slot →
      (parts.set slot key rule).statefulAt other = parts.statefulAt other := by
    intro other hne
    rw [statefulAt, get_set_of_ne hne, statefulAt]
  unfold stateful
  cases slot with
  | condition =>
    rw [hself, hother .action nofun, hother .alternative nofun, hfree, List.nil_append]
    exact List.perm_append_comm
  | action =>
    rw [hself, hother .condition nofun, hother .alternative nofun, hfree, List.nil_append,
      List.append_assoc]
    exact List.perm_append_comm.append_left _
  | alternative =>
    rw [hself, hother .condition nofun, hother .action nofun, hfree, List.append_nil,
      List.append_assoc]

theorem perm_stateful_rule {rule : Rule} (h : parts.rule = .ok rule) :
    rule.stateful.Perm parts.stateful := by
  have hyes : ((parts.action.map Prod.snd).getD (.constant (.bool true))).stateful =
      parts.statefulAt .action := by
    simp only [statefulAt, get]
    cases parts.action <;> simp [Rule.stateful]
  have hno : ((parts.alternative.map Prod.snd).getD skip).stateful =
      parts.statefulAt .alternative := by
    simp only [statefulAt, get]
    cases parts.alternative <;> simp [Rule.stateful, skip, statefulIn]
  unfold Components.rule at h
  dsimp only at h
  cases hpart : parts.condition with
  | some part =>
    obtain ⟨key, condition⟩ := part
    have hcondition : parts.statefulAt .condition = condition.stateful := by
      simp [statefulAt, get, hpart]
    rw [hpart] at h
    cases h
    rw [stateful, hcondition]
    split
    · rw [Rule.stateful, hyes, hno]
      exact List.perm_append_comm.append_left _
    · rw [Rule.stateful, hyes, hno]
  | none =>
    have hcondition : parts.statefulAt .condition = [] := by simp [statefulAt, get, hpart]
    rw [hpart] at h
    dsimp only at h
    split at h
    · cases h
      have htrue : (constant (.bool true)).stateful = [] := rfl
      rw [stateful, hcondition, Rule.stateful, htrue, hyes, hno]
    · cases h

end Components

mutual

theorem compiledBelow_ofValue {path : String} {rule : Rule} :
    ∀ v : Value, ofValue path v = .ok rule → CompiledBelow path rule.stateful
  | .string text, h => by
    rw [ofValue] at h
    rw [stateful_ofString (Error.reportAt_eq_ok_iff.mp h)]
    exact compiledBelow_nil path
  | .list values, h => by
    rw [ofValue] at h
    obtain ⟨rules, hrules, h⟩ := Error.bind_eq_ok_iff.mp h
    cases h
    exact compiledBelow_ofValues 0 values hrules
  | .map _ entries, h => by
    rw [ofValue] at h
    obtain ⟨parts, hparts, h⟩ := Error.bind_eq_ok_iff.mp h
    have hbelow := compiledBelow_ofEntries (compiledBelow_nil path) entries hparts
    have hperm := Components.perm_stateful_rule (Error.reportAt_eq_ok_iff.mp h)
    exact fun p hp => hbelow p (hperm.mem_iff.mp hp)
  | .function f, h => by
    rw [ofValue] at h
    cases h
    exact compiledBelow_nil path
  | .nil, h | .bool _, h | .int _, h | .float _, h | .entity _, h => by
    simp only [ofValue] at h
    cases h
    exact compiledBelow_nil path

theorem compiledBelow_ofValues {path : String} {rules : List Rule} (i : Nat) :
    ∀ vs : List Value, ofValues path i vs = .ok rules → CompiledBelow path (statefulIn rules)
  | [], h => by
    rw [ofValues] at h
    cases h
    exact compiledBelow_nil path
  | v :: vs, h => by
    rw [ofValues] at h
    obtain ⟨rule, hrule, h⟩ := Error.bind_eq_ok_iff.mp h
    obtain ⟨rest, hrest, h⟩ := Error.bind_eq_ok_iff.mp h
    cases h
    exact (compiledBelow_ofValue v hrule).of_part.append (compiledBelow_ofValues (i + 1) vs hrest)

theorem compiledBelow_ofEntries {path : String} {parts whole : Components}
    (hparts : CompiledBelow path parts.stateful) : ∀ entries : List (String × Value),
      ofEntries path parts entries = .ok whole → CompiledBelow path whole.stateful
  | [], h => by
    rw [ofEntries] at h
    cases h
    exact hparts
  | (key, v) :: rest, h => by
    obtain ⟨slot, rule, component, ⟨_, hfree⟩, hrule, hcomponent, hrest⟩ :=
      ofEntries_cons_eq_ok_iff.mp h
    have hrules := (compiledBelow_ofValue v hrule).of_part
    have hbelow : CompiledBelow path component.stateful := by
      rw [stateful_ofComponent hcomponent]
      apply CompiledBelow.append _ hrules
      intro p hp
      by_cases hname : key ∈ ["repeat", "once"]
      · rw [if_pos hname] at hp
        cases List.mem_singleton.mp hp
        have hcompiled : componentOf key (partPath path key) v = .ok component :=
          Error.bind_eq_ok_iff.mpr ⟨rule, hrule, hcomponent⟩
        exact ⟨⟨key, rfl⟩, key, hname, v, hcompiled⟩
      · rw [if_neg hname] at hp
        cases hp
    have hperm := Components.perm_stateful_set hfree key component
    have hset : CompiledBelow path (parts.set slot key component).stateful :=
      fun p hp => hparts.append hbelow p (hperm.mem_iff.mp hp)
    exact compiledBelow_ofEntries hset rest hrest

end

end Rule

end TextAdventure
