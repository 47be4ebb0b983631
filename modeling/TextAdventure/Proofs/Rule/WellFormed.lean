import TextAdventure.Proofs.Expr.Arrow
import TextAdventure.Rule

/-! # Well-formed rules

Whether a value is a rule does not depend on the path that it is compiled at. Strings are lines or
expressions that are no actions, all items of a list are rules, and the entries of a map play each part
of a rule at most once; every other value is a rule as it is.
-/
namespace TextAdventure

namespace Rule

variable {path key : String} {v : Value} {rule component : Rule} {parts whole : Components} {slot : Slot}

/-- The keys that play a part. -/
def Slot.keys : Slot → List String
  | condition => ["when", "if", "unless"]
  | action => ["all", "do", "then", "switch", "repeat", "random", "once"]
  | alternative => ["otherwise", "else"]

theorem Slot.ofKey?_eq_some_iff : Slot.ofKey? key = some slot ↔ key ∈ slot.keys := by
  constructor
  · intro h
    unfold Slot.ofKey? at h
    split at h
    next hkey =>
      cases h
      exact hkey
    split at h
    next hkey =>
      cases h
      exact hkey
    split at h
    next hkey =>
      cases h
      exact hkey
    · cases h
  · have hkeys : ∀ k ∈ slot.keys, Slot.ofKey? k = some slot := by
      cases slot <;> decide
    exact hkeys key

namespace Components

@[simp] theorem get_set_self (slot : Slot) (key : String) (rule : Rule) (parts : Components) :
    (parts.set slot key rule).get slot = some (key, rule) := by
  cases slot <;> rfl

theorem get_set_of_ne {slot other : Slot} (h : other ≠ slot) (key : String) (rule : Rule)
    (parts : Components) : (parts.set slot key rule).get other = parts.get other := by
  revert h
  cases other <;> cases slot <;> simp [get, set]

theorem freeSlot_eq_ok_iff :
    parts.freeSlot key = .ok slot ↔ key ∈ slot.keys ∧ parts.get slot = none := by
  rw [freeSlot, ← Slot.ofKey?_eq_some_iff]
  cases Slot.ofKey? key with
  | none => simp
  | some other =>
    cases hget : parts.get other with
    | none =>
      simp only [hget, Option.some.injEq, Except.ok.injEq, iff_self_and]
      rintro rfl
      exact hget
    | some part =>
      simp only [hget, Option.some.injEq, reduceCtorEq, false_iff, not_and]
      rintro rfl
      simp [hget]

/-- How many components play a part, one or none. -/
def filled (slot : Slot) (parts : Components) : Nat :=
  (parts.get slot).toList.length

theorem filled_le_one (slot : Slot) (parts : Components) : parts.filled slot ≤ 1 :=
  Option.length_toList_le

theorem filled_eq_zero_iff : parts.filled slot = 0 ↔ parts.get slot = none := by
  rw [filled, List.length_eq_zero_iff, Option.toList_eq_nil_iff]

theorem filled_set (h : parts.get slot = none) (other : Slot) (key : String) (rule : Rule) :
    (parts.set slot key rule).filled other =
      parts.filled other + if other = slot then 1 else 0 := by
  by_cases hother : other = slot
  · subst hother
    simp [filled, h]
  · rw [filled, get_set_of_ne hother, if_neg hother]
    rfl

theorem exists_rule_iff : (∃ rule, parts.rule = .ok rule) ↔
    0 < parts.filled .condition ∨ 0 < parts.filled .action := by
  obtain ⟨condition, action, alternative⟩ := parts
  cases condition with
  | some condition => simp [rule, filled, get]
  | none => cases action <;> simp [rule, filled, get]

end Components

theorem someItems_eq_ok_iff {rules : List Rule} :
    someItems key rule = .ok rules ↔ rule.items = rules ∧ rules ≠ [] := by
  unfold someItems
  by_cases hempty : rule.items.isEmpty
  · rw [if_pos hempty]
    have hnil : rule.items = [] := List.isEmpty_iff.mp hempty
    simp [hnil, eq_comm]
  · rw [if_neg hempty]
    have hne : rule.items ≠ [] := fun h => hempty (List.isEmpty_iff.mpr h)
    constructor
    · intro h
      cases h
      exact ⟨rfl, hne⟩
    · rintro ⟨rfl, _⟩
      rfl

theorem exists_ofComponent_iff : (∃ component, ofComponent key path rule = .ok component) ↔
    (key ∈ ["repeat", "random"] → rule.items ≠ []) := by
  have hsome : ∀ f : List Rule → Rule, (∃ component, (someItems key rule).map f = .ok component) ↔
      rule.items ≠ [] := by
    intro f
    simp only [Error.map_eq_ok_iff, someItems_eq_ok_iff]
    constructor
    · rintro ⟨_, rules, ⟨rfl, hne⟩, _⟩
      exact hne
    · intro hne
      exact ⟨_, rule.items, ⟨rfl, hne⟩, rfl⟩
  unfold ofComponent
  by_cases hswitch : key = "switch"
  · simp [hswitch]
  by_cases hrepeat : key = "repeat"
  · rw [if_neg hswitch, if_pos hrepeat, hsome]
    simp [hrepeat]
  by_cases hrandom : key = "random"
  · rw [if_neg hswitch, if_neg hrepeat, if_pos hrandom, hsome]
    simp [hrandom]
  · rw [if_neg hswitch, if_neg hrepeat, if_neg hrandom]
    have hkey : key ∉ ["repeat", "random"] := by simp [hrepeat, hrandom]
    by_cases honce : key = "once" <;> simp [honce, hkey]

theorem ofEntries_cons_eq_ok_iff {rest : List (String × Value)} :
    ofEntries path parts ((key, v) :: rest) = .ok whole ↔
      ∃ slot rule component, (key ∈ slot.keys ∧ parts.get slot = none) ∧
        ofValue (partPath path key) v = .ok rule ∧
        ofComponent key (partPath path key) rule = .ok component ∧
        ofEntries path (parts.set slot key component) rest = .ok whole := by
  rw [ofEntries]
  simp only [Error.bind_eq_ok_iff, Error.reportAt_eq_ok_iff, Components.freeSlot_eq_ok_iff,
    exists_and_left]

/-- Of the rules that values compile to, only that of the empty list has no items. -/
theorem items_eq_nil_iff (h : ofValue path v = .ok rule) : rule.items = [] ↔ v = .list [] := by
  cases v with
  | string text =>
    rw [ofValue, Error.reportAt_eq_ok_iff, ofString] at h
    split at h
    · cases h
      simp [items]
    · obtain ⟨s, _, rfl⟩ := Error.map_eq_ok_iff.mp h
      unfold ofScript
      split <;> simp [items]
  | list values =>
    rw [ofValue] at h
    obtain ⟨rules, hrules, h⟩ := Error.bind_eq_ok_iff.mp h
    cases h
    cases values with
    | nil =>
      cases hrules
      simp [items]
    | cons v vs =>
      rw [ofValues] at hrules
      obtain ⟨rule, _, hrules⟩ := Error.bind_eq_ok_iff.mp hrules
      obtain ⟨rest, _, hrules⟩ := Error.bind_eq_ok_iff.mp hrules
      cases hrules
      simp [items]
  | map layout entries =>
    rw [ofValue] at h
    obtain ⟨parts, _, h⟩ := Error.bind_eq_ok_iff.mp h
    rw [Error.reportAt_eq_ok_iff, Components.rule] at h
    split at h
    · cases h
      split <;> simp [items]
    · split at h
      · cases h
        simp [items]
      · cases h
  | _ =>
    simp only [ofValue] at h
    cases h
    simp [items]

theorem filled_ofEntries {entries : List (String × Value)}
    (h : ofEntries path parts entries = .ok whole) (slot : Slot) :
    whole.filled slot = parts.filled slot + entries.countP (·.1 ∈ slot.keys) := by
  induction entries generalizing parts with
  | nil =>
    rw [ofEntries] at h
    cases h
    rfl
  | cons entry rest ih =>
    obtain ⟨key, v⟩ := entry
    obtain ⟨taken, rule, component, ⟨hkey, hfree⟩, _, _, hrest⟩ := ofEntries_cons_eq_ok_iff.mp h
    have hpart : key ∈ slot.keys ↔ slot = taken := by
      rw [← Slot.ofKey?_eq_some_iff, Slot.ofKey?_eq_some_iff.mpr hkey]
      simp [eq_comm]
    rw [ih hrest, Components.filled_set hfree, List.countP_cons]
    simp only [decide_eq_true_eq, hpart]
    omega

/-- The entries of a map are the components of a rule. -/
structure MakesRule (entries : List (String × Value)) : Prop where
  known : ∀ entry ∈ entries, ∃ slot : Slot, entry.1 ∈ slot.keys
  atMostOne : ∀ slot : Slot, entries.countP (·.1 ∈ slot.keys) ≤ 1
  hasRule : ∃ entry ∈ entries, entry.1 ∈ Slot.condition.keys ∨ entry.1 ∈ Slot.action.keys
  hasItems : ∀ entry ∈ entries, entry.1 ∈ ["repeat", "random"] → entry.2 ≠ .list []

inductive WellFormed : Value → Prop
  | line {text : String} (h : text.toList.head? = some '$') : WellFormed (.string text)
  | script {text : String} {e : Expr} (h : Expr.parse text = .ok e)
      (hroot : ∀ pattern body span, e ≠ .arrow pattern body span) : WellFormed (.string text)
  | list {values : List Value} (h : ∀ v ∈ values, WellFormed v) : WellFormed (.list values)
  | map {layout : Layout} {entries : List (String × Value)} (hparts : MakesRule entries)
      (h : ∀ entry ∈ entries, WellFormed entry.2) : WellFormed (.map layout entries)
  | nil : WellFormed .nil
  | bool (b : Bool) : WellFormed (.bool b)
  | int (n : Int64) : WellFormed (.int n)
  | float (x : Float) : WellFormed (.float x)
  | entity (id : String) : WellFormed (.entity id)
  | function (f : Function) : WellFormed (.function f)

theorem exists_ofString_iff {text : String} :
    (∃ rule, ofString text = .ok rule) ↔ WellFormed (.string text) := by
  unfold ofString
  split
  next rest htext => exact iff_of_true ⟨_, rfl⟩ (.line (by rw [htext]; rfl))
  next hline =>
    have hcompiled : (∃ rule, (Script.compile text).map ofScript = .ok rule) ↔
        ∃ script, Script.compile text = .ok script := by
      cases Script.compile text <;> simp [Except.map]
    rw [hcompiled, Script.exists_compile_iff]
    constructor
    · rintro ⟨e, hparse, hroot⟩
      exact .script hparse hroot
    · intro h
      cases h with
      | line hhead =>
        obtain ⟨rest, htext⟩ := List.head?_eq_some_iff.mp hhead
        exact absurd htext (hline rest)
      | script hparse hroot => exact ⟨_, hparse, hroot⟩

theorem makesRule_of_ofEntries {entries : List (String × Value)}
    (h : ofEntries path .empty entries = .ok whole) (hrule : whole.rule = .ok rule) :
    MakesRule entries where
  known := by
    intro entry hentry
    generalize Components.empty = parts at h
    induction entries generalizing parts with
    | nil => cases hentry
    | cons first rest ih =>
      obtain ⟨slot, _, component, ⟨hkey, _⟩, _, _, hrest⟩ := ofEntries_cons_eq_ok_iff.mp h
      rcases List.mem_cons.mp hentry with rfl | hentry
      · exact ⟨slot, hkey⟩
      · exact ih hentry _ hrest
  atMostOne slot := by
    have hfilled := filled_ofEntries h slot
    have hle := whole.filled_le_one slot
    omega
  hasRule := by
    have hempty : ∀ slot, Components.empty.filled slot = 0 := by
      intro slot
      cases slot <;> rfl
    have hfilled := Components.exists_rule_iff.mp ⟨rule, hrule⟩
    rw [filled_ofEntries h, filled_ofEntries h, hempty, hempty, Nat.zero_add, Nat.zero_add,
      List.countP_pos_iff, List.countP_pos_iff] at hfilled
    simpa [← exists_or, ← and_or_left] using hfilled
  hasItems := by
    intro entry hentry hpicks
    generalize Components.empty = parts at h
    induction entries generalizing parts with
    | nil => cases hentry
    | cons first rest ih =>
      obtain ⟨slot, compiled, component, _, hvalue, hcomponent, hrest⟩ :=
        ofEntries_cons_eq_ok_iff.mp h
      rcases List.mem_cons.mp hentry with rfl | hentry
      · have hitems := exists_ofComponent_iff.mp ⟨component, hcomponent⟩ hpicks
        rwa [Ne, items_eq_nil_iff hvalue] at hitems
      · exact ih hentry _ hrest

mutual

theorem wellFormed_of_ofValue {path : String} {rule : Rule} :
    ∀ v : Value, ofValue path v = .ok rule → WellFormed v
  | .string text, h => by
    rw [ofValue, Error.reportAt_eq_ok_iff] at h
    exact exists_ofString_iff.mp ⟨rule, h⟩
  | .list values, h => by
    rw [ofValue] at h
    obtain ⟨rules, hrules, _⟩ := Error.bind_eq_ok_iff.mp h
    exact .list (wellFormed_of_ofValues 0 values hrules)
  | .map layout entries, h => by
    rw [ofValue] at h
    obtain ⟨parts, hparts, hrule⟩ := Error.bind_eq_ok_iff.mp h
    have hrule := Error.reportAt_eq_ok_iff.mp hrule
    exact .map (makesRule_of_ofEntries hparts hrule) (wellFormed_of_ofEntries _ entries hparts)
  | .nil, _ => .nil
  | .bool b, _ => .bool b
  | .int n, _ => .int n
  | .float x, _ => .float x
  | .entity id, _ => .entity id
  | .function f, _ => .function f

theorem wellFormed_of_ofValues {path : String} {rules : List Rule} (i : Nat) :
    ∀ vs : List Value, ofValues path i vs = .ok rules → ∀ v ∈ vs, WellFormed v
  | [], _ => fun _ hv => absurd hv List.not_mem_nil
  | v :: vs, h => by
    rw [ofValues] at h
    obtain ⟨rule, hrule, h⟩ := Error.bind_eq_ok_iff.mp h
    obtain ⟨rest, hrest, _⟩ := Error.bind_eq_ok_iff.mp h
    have hv := wellFormed_of_ofValue v hrule
    have hvs := wellFormed_of_ofValues (i + 1) vs hrest
    exact List.forall_mem_cons.mpr ⟨hv, hvs⟩

theorem wellFormed_of_ofEntries {path : String} {whole : Components} (parts : Components) :
    ∀ entries : List (String × Value), ofEntries path parts entries = .ok whole →
      ∀ entry ∈ entries, WellFormed entry.2
  | [], _ => fun _ hentry => absurd hentry List.not_mem_nil
  | (key, v) :: rest, h => by
    obtain ⟨slot, rule, component, _, hrule, _, hrest⟩ := ofEntries_cons_eq_ok_iff.mp h
    have hv := wellFormed_of_ofValue v hrule
    have hentries := wellFormed_of_ofEntries _ rest hrest
    exact List.forall_mem_cons.mpr ⟨hv, hentries⟩

end

theorem exists_ofValues {values : List Value}
    (h : ∀ v ∈ values, ∀ path, ∃ rule, ofValue path v = .ok rule) (path : String) (i : Nat) :
    ∃ rules, ofValues path i values = .ok rules := by
  induction values generalizing i with
  | nil => exact ⟨[], rfl⟩
  | cons v vs ih =>
    obtain ⟨rule, hrule⟩ := h v List.mem_cons_self (partPath path (Number.naturalText i))
    obtain ⟨rules, hrules⟩ := ih (fun w hw => h w (List.mem_cons_of_mem v hw)) (i + 1)
    exact ⟨rule :: rules, by rw [ofValues, hrule, hrules]; rfl⟩

theorem exists_ofEntries {entries : List (String × Value)}
    (h : ∀ entry ∈ entries, ∀ path, ∃ rule, ofValue path entry.2 = .ok rule)
    (hknown : ∀ entry ∈ entries, ∃ slot : Slot, entry.1 ∈ slot.keys)
    (hitems : ∀ entry ∈ entries, entry.1 ∈ ["repeat", "random"] → entry.2 ≠ .list [])
    (hfree : ∀ slot : Slot, parts.filled slot + entries.countP (·.1 ∈ slot.keys) ≤ 1) :
    ∃ whole, ofEntries path parts entries = .ok whole := by
  induction entries generalizing parts with
  | nil => exact ⟨parts, by rw [ofEntries]⟩
  | cons entry rest ih =>
    obtain ⟨key, v⟩ := entry
    obtain ⟨slot, hkey⟩ := hknown _ List.mem_cons_self
    obtain ⟨rule, hrule⟩ := h _ List.mem_cons_self (partPath path key)
    have hslot : parts.get slot = none := by
      rw [← Components.filled_eq_zero_iff]
      have hcount := hfree slot
      rw [List.countP_cons_of_pos (by simpa using hkey)] at hcount
      omega
    have hcomponent : key ∈ ["repeat", "random"] → rule.items ≠ [] := by
      intro hpicks
      rw [Ne, items_eq_nil_iff hrule]
      exact hitems _ List.mem_cons_self hpicks
    obtain ⟨component, hcomponent⟩ := exists_ofComponent_iff.mpr hcomponent
    have hrest : ∀ other : Slot, (parts.set slot key component).filled other +
        rest.countP (·.1 ∈ other.keys) ≤ 1 := by
      intro other
      have hcount := hfree other
      rw [List.countP_cons] at hcount
      rw [Components.filled_set hslot]
      by_cases hother : other = slot
      · subst hother
        simp only [hkey, decide_true, if_true] at hcount ⊢
        omega
      · rw [if_neg hother]
        omega
    obtain ⟨whole, hwhole⟩ := ih (fun e he => h e (List.mem_cons_of_mem _ he))
      (fun e he => hknown e (List.mem_cons_of_mem _ he))
      (fun e he => hitems e (List.mem_cons_of_mem _ he)) hrest
    exact ⟨whole, ofEntries_cons_eq_ok_iff.mpr
      ⟨slot, rule, component, ⟨hkey, hslot⟩, hrule, hcomponent, hwhole⟩⟩

theorem MakesRule.exists_rule {entries : List (String × Value)} (h : MakesRule entries)
    (hwhole : ofEntries path parts entries = .ok whole) : ∃ rule, whole.rule = .ok rule := by
  obtain ⟨entry, hentry, hkey⟩ := h.hasRule
  apply Components.exists_rule_iff.mpr
  rw [filled_ofEntries hwhole, filled_ofEntries hwhole]
  rcases hkey with hkey | hkey
  · have hpos : 0 < entries.countP (·.1 ∈ Slot.condition.keys) :=
      List.countP_pos_iff.mpr ⟨entry, hentry, by simpa using hkey⟩
    omega
  · have hpos : 0 < entries.countP (·.1 ∈ Slot.action.keys) :=
      List.countP_pos_iff.mpr ⟨entry, hentry, by simpa using hkey⟩
    omega

theorem WellFormed.exists_ofValue (h : WellFormed v) :
    ∀ path, ∃ rule, ofValue path v = .ok rule := by
  induction h with
  | @line text h =>
    intro path
    obtain ⟨rule, hrule⟩ := exists_ofString_iff.mpr (.line h)
    exact ⟨rule, by rw [ofValue, Error.reportAt_eq_ok_iff, hrule]⟩
  | @script text e h hroot =>
    intro path
    obtain ⟨rule, hrule⟩ := exists_ofString_iff.mpr (.script h hroot)
    exact ⟨rule, by rw [ofValue, Error.reportAt_eq_ok_iff, hrule]⟩
  | list _ ih =>
    intro path
    obtain ⟨rules, hrules⟩ := exists_ofValues ih path 0
    exact ⟨.sequence rules, by rw [ofValue, hrules]; rfl⟩
  | @map layout entries hparts _ ih =>
    intro path
    have hempty : ∀ slot : Slot, Components.empty.filled slot +
        entries.countP (·.1 ∈ slot.keys) ≤ 1 := by
      intro slot
      have hnone : Components.empty.filled slot = 0 := by cases slot <;> rfl
      rw [hnone, Nat.zero_add]
      exact hparts.atMostOne slot
    obtain ⟨whole, hwhole⟩ := exists_ofEntries ih hparts.known hparts.hasItems hempty
    obtain ⟨rule, hrule⟩ := hparts.exists_rule hwhole
    refine ⟨rule, ?_⟩
    rw [ofValue]
    exact Error.bind_eq_ok_iff.mpr ⟨whole, hwhole, Error.reportAt_eq_ok_iff.mpr hrule⟩
  | nil | bool | int | float | entity | function => exact fun path => ⟨_, rfl⟩

/-- A value compiles to a rule, at whatever path, exactly if it is well-formed. -/
theorem compiles_iff_wellFormed (path : String) (v : Value) :
    (∃ rule, ofValue path v = .ok rule) ↔ WellFormed v := by
  constructor
  · rintro ⟨rule, h⟩
    exact wellFormed_of_ofValue v h
  · intro h
    exact h.exists_ofValue path

end Rule

end TextAdventure
