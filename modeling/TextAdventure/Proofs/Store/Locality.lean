import TextAdventure.Proofs.Eval.Balance
import TextAdventure.Proofs.Store.ReadBack

/-! # Writes fail as a whole and change only their path

A write goes down its path first and changes the store on its way back, so an error comes before every
change. A write that succeeds changes the binding of its name and, of every entity on its path, the one
property that the path goes on through.
-/
namespace TextAdventure

namespace Eval

variable {α β : Type}

/-- Writes `value` below `target`, one container after the other, and gives the target as it is
afterwards. An error would leave behind what is changed before it. -/
def writeBelow (target : Value) (keys : List String) (value : Value) : Eval Value :=
  match keys with
  | [] => return value
  | key :: keys =>
    match target with
    | .entity id => do
      let current := ((← get).property? id key).getD .nil
      let updated ← writeBelow current keys value
      modify (Store.setProperty id key updated)
      return .entity id
    | .map layout entries => do
      let updated ← writeBelow ((Dictionary.get? key entries).getD .nil) keys value
      let mark ← modifyGet Store.freshIdentity
      return .mapWith mark key updated layout entries
    | .nil => do
      let updated ← writeBelow .nil keys value
      let mark ← modifyGet Store.freshIdentity
      return .mapWith mark key updated .empty []
    | .list items =>
      match listIndex? key with
      | some i => do
        let updated ← writeBelow (items[i]?.getD .nil) keys value
        return .list (if i < items.length then items.set i updated else items ++ [updated])
      | none => throw (.ofFault (.typeMismatch "list index" "string"))
    | other => throw (other.typeMismatch "map or object")

/-- Writes below a name, one container after the other and the name last. -/
def writeKeys (name : String) (keys : List String) (value : Value) : Eval Unit := do
  let s ← get
  let updated ← writeBelow (s.start name) keys value
  modify (Store.bindAt (s.owner name) name updated)

theorem runOn_writeBelow (target : Value) (keys : List String) (value : Value) (s : Store) :
    runOn (writeBelow target keys value) s = runOn (change (Store.assign target keys value)) s := by
  rw [runOn_change]
  induction keys generalizing target s with
  | nil => rfl
  | cons key keys ih =>
    cases target with
    | entity id =>
      simp only [writeBelow, Store.assign, runOn_bind, runOn_get, ih]
      cases s.assign ((s.property? id key).getD .nil) keys value <;> rfl
    | map layout entries =>
      simp only [writeBelow, Store.assign, runOn_bind, ih]
      cases s.assign ((Dictionary.get? key entries).getD .nil) keys value <;> rfl
    | nil =>
      simp only [writeBelow, Store.assign, runOn_bind, ih]
      cases s.assign .nil keys value <;> rfl
    | list items =>
      cases hi : listIndex? key with
      | none => simp [writeBelow, Store.assign, hi]
      | some i =>
        simp only [writeBelow, Store.assign, hi, runOn_bind, ih]
        cases s.assign (items[i]?.getD .nil) keys value <;> rfl
    | _ => rfl

theorem runOn_writeKeys (name : String) (keys : List String) (value : Value) (s : Store) :
    runOn (writeKeys name keys value) s =
      runOn (change fun s => (s.setKeys name keys value).map fun t => ((), t)) s := by
  rw [runOn_change]
  cases keys with
  | nil => rfl
  | cons key keys =>
    simp only [writeKeys, Store.setKeys, Store.start, runOn_bind, runOn_get, runOn_writeBelow,
      runOn_change]
    cases s.assign ((s.lookupName name).getD .nil) (key :: keys) value <;> rfl

/-- The computation fails and leaves the store as it is, or it succeeds in a store with a property. -/
def AllOrNothing (s : Store) (m : Eval α) (Q : Store → Prop) : Prop :=
  match runOn m s with
  | (.error _, t) => t = s
  | (.ok _, t) => Q t

/-- A computation that runs like a change as a whole is all or nothing. -/
theorem allOrNothing_of_change {s : Store} {m : Eval α} {f : Store → Except Error (α × Store)}
    {Q : Store → Prop} (hm : runOn m s = runOn (change f) s)
    (hf : ∀ a t, f s = .ok (a, t) → Q t) : AllOrNothing s m Q := by
  rw [AllOrNothing, hm, runOn_change]
  cases h : f s with
  | error e => rfl
  | ok r => exact hf r.1 r.2 h

end Eval

namespace Store

variable {s t u : Store}

/-- A place in the store that holds a value. -/
inductive Location where
  | global (name : String)
  /-- A name in a scope with bindings of its own, found after passing `depth` scopes. -/
  | scope (depth : Nat) (name : String)
  | property (id key : String)
  deriving DecidableEq, Repr

def valueAt (s : Store) : Location → Option Value
  | .global name => Dictionary.get? name s.globals
  | .scope depth name =>
    match s.scopes[depth]? with
    | some (.block bindings) => Dictionary.get? name bindings
    | _ => none
  | .property id key => s.property? id key

/-- Where a name is bound by the scope found after passing `depth` scopes, or by the globals past the
last. -/
def locationAt (depth : Nat) (name : String) (s : Store) : Location :=
  match s.scopes[depth]? with
  | some (.block _) => .scope depth name
  | some (.entity id) => .property id name
  | none => .global name

/-- Where the first definition of a name binds it; the globals do if there is none. -/
def location (name : String) (s : Store) : Location :=
  s.locationAt (s.owner name) name

/-- The property by which a path leaves an entity. -/
def Visit.location (visit : Visit) : Location :=
  .property visit.entity visit.key

/-- The properties by which a path below a value leaves the entities that it passes through. -/
def locationsBelow (target : Value) (keys : List String) (s : Store) : List Location :=
  (s.visits target keys).map Visit.location

/-- The stores agree in everything but what they hold at some places, and in the marks that are free for
new maps. -/
structure AgreeOff (places : List Location) (s t : Store) : Prop where
  valueAt : ∀ l, l ∉ places → t.valueAt l = s.valueAt l
  properties? : ∀ id, (∀ key, .property id key ∉ places) → t.properties? id = s.properties? id
  frames : t.frames = s.frames
  lines : t.lines = s.lines
  outerLines : t.outerLines = s.outerLines
  random : t.random = s.random
  activeCalls : t.activeCalls = s.activeCalls
  maxCalls : t.maxCalls = s.maxCalls

namespace AgreeOff

theorem refl (s : Store) : AgreeOff [] s s :=
  ⟨fun _ _ => rfl, fun _ _ => rfl, rfl, rfl, rfl, rfl, rfl, rfl⟩

theorem trans {ps qs : List Location} (hst : AgreeOff ps s t) (htu : AgreeOff qs t u) :
    AgreeOff (qs ++ ps) s u where
  valueAt l hl := by
    have hnot := not_or.mp (mt List.mem_append.mpr hl)
    exact (htu.valueAt l hnot.1).trans (hst.valueAt l hnot.2)
  properties? id hid := by
    have hq : ∀ key, .property id key ∉ qs := fun key hm => hid key (List.mem_append_left ps hm)
    have hp : ∀ key, .property id key ∉ ps := fun key hm => hid key (List.mem_append_right qs hm)
    exact (htu.properties? id hq).trans (hst.properties? id hp)
  frames := htu.frames.trans hst.frames
  lines := htu.lines.trans hst.lines
  outerLines := htu.outerLines.trans hst.outerLines
  random := htu.random.trans hst.random
  activeCalls := htu.activeCalls.trans hst.activeCalls
  maxCalls := htu.maxCalls.trans hst.maxCalls

end AgreeOff

theorem agreeOff_freshIdentity (s : Store) : AgreeOff [] s s.freshIdentity.2 :=
  ⟨fun l _ => by cases l <;> rfl, fun _ _ => rfl, rfl, rfl, rfl, rfl, rfl, rfl⟩

theorem agreeOff_setProperty (id key : String) (v : Value) (s : Store) :
    AgreeOff [.property id key] s (s.setProperty id key v) where
  valueAt l hl := by
    cases l with
    | global name => rfl
    | scope depth name => rfl
    | property id' key' =>
      have hne : (id', key') ≠ (id, key) := by
        intro heq
        cases heq
        exact hl List.mem_cons_self
      exact property?_setProperty_of_ne hne v s
  properties? id' hid := by
    have hne : id' ≠ id := by
      intro heq
      exact hid key (heq ▸ List.mem_cons_self)
    exact properties?_setProperty_of_ne hne key v s
  frames := frames_eq_iff.mpr (kinds_setProperty id key v s)
  lines := rfl
  outerLines := rfl
  random := rfl
  activeCalls := rfl
  maxCalls := rfl

theorem agreeOff_bindAt (depth : Nat) (name : String) (v : Value) (s : Store) :
    AgreeOff [s.locationAt depth name] s (s.bindAt depth name v) := by
  have hframes := frames_eq_iff.mpr (kinds_bindAt depth name v s)
  unfold locationAt
  unfold bindAt at hframes ⊢
  cases hd : s.scopes[depth]? with
  | none =>
    rw [hd] at hframes
    refine ⟨fun l hl => ?_, fun id _ => rfl, hframes, rfl, rfl, rfl, rfl, rfl⟩
    cases l with
    | global other =>
      have hne : other ≠ name := fun heq => hl (heq ▸ List.mem_cons_self)
      exact Dictionary.get?_insert_of_ne hne v s.globals
    | scope depth' other => rfl
    | property id key => rfl
  | some scope =>
    rw [hd] at hframes
    cases scope with
    | entity id => exact agreeOff_setProperty id name v s
    | block bindings =>
      refine ⟨fun l hl => ?_, fun id _ => rfl, hframes, rfl, rfl, rfl, rfl, rfl⟩
      cases l with
      | global other => rfl
      | property id key => rfl
      | scope depth' other =>
        obtain ⟨hlt, hget⟩ := List.getElem?_eq_some_iff.mp hd
        by_cases hdepth : depth' = depth
        · subst hdepth
          have hne : other ≠ name := fun heq => hl (heq ▸ List.mem_cons_self)
          simp [valueAt, hlt, hget, Dictionary.get?_insert_of_ne hne]
        · simp [valueAt, List.getElem?_set_ne (Ne.symm hdepth)]

theorem agreeOff_of_rebuild {target v w : Value} {key : String} {rest : List String}
    (h : s.rebuild target key v = some (w, t)) :
    AgreeOff ((visitAt target key rest).map Visit.location) s t := by
  cases target with
  | entity id =>
    cases h
    exact agreeOff_setProperty id key v s
  | list items =>
    obtain ⟨i, _, he⟩ := Option.map_eq_some_iff.mp h
    cases he
    exact .refl s
  | map layout entries =>
    cases h
    exact agreeOff_freshIdentity s
  | nil =>
    cases h
    exact agreeOff_freshIdentity s
  | _ => cases h

theorem agreeOff_of_assign {target value v : Value} {keys : List String}
    (h : s.assign target keys value = .ok (v, t)) :
    AgreeOff (s.locationsBelow target keys) s t := by
  induction keys generalizing target v t with
  | nil =>
    cases h
    exact .refl s
  | cons key keys ih =>
    obtain ⟨updated, t', hd, hr⟩ := assign_cons_eq_ok_iff.1 h
    have hbelow := ih hd
    have hhere : AgreeOff ((visitAt target key keys).map Visit.location) t' t :=
      agreeOff_of_rebuild hr
    have hall := hbelow.trans hhere
    rwa [locationsBelow, ← List.map_append] at hall

theorem agreeOff_of_setKeys {name : String} {keys : List String} {value : Value}
    (h : s.setKeys name keys value = .ok t) :
    AgreeOff (s.location name :: s.locationsBelow (s.start name) keys) s t := by
  obtain ⟨u, t', ha, rfl⟩ := setKeys_eq_ok_iff.1 h
  have hbind := agreeOff_bindAt (s.owner name) name u t'
  have hsame : t'.locationAt (s.owner name) name = s.location name := by
    rw [location, locationAt, locationAt, scopes_of_assign ha]
  rw [hsame] at hbind
  exact (agreeOff_of_assign ha).trans hbind

theorem allOrNothing_writeBelow (target : Value) (keys : List String) (value : Value) (s : Store) :
    Eval.AllOrNothing s (Eval.writeBelow target keys value)
      (AgreeOff (s.locationsBelow target keys) s) := by
  apply Eval.allOrNothing_of_change (Eval.runOn_writeBelow target keys value s)
  intro v t h
  exact agreeOff_of_assign h

theorem allOrNothing_writeKeys (name : String) (keys : List String) (value : Value) (s : Store) :
    Eval.AllOrNothing s (Eval.writeKeys name keys value)
      (AgreeOff (s.location name :: s.locationsBelow (s.start name) keys) s) := by
  apply Eval.allOrNothing_of_change (Eval.runOn_writeKeys name keys value s)
  intro _ t h
  cases hs : s.setKeys name keys value with
  | error e =>
    rw [hs] at h
    cases h
  | ok t' =>
    rw [hs] at h
    cases h
    exact agreeOff_of_setKeys hs

/-- A write in place is what the program does as a whole. If it fails, the whole store is as it was,
whatever entities its path led through. If it succeeds, the store has changed at most where the name is
first defined, or in the globals if it is not, and in the properties by which the path leaves the
entities on it. -/
theorem writes_atomic_and_local (s : Store) (keys : List String) (value : Value) :
    (∀ target : Value,
      Eval.runOn (Eval.writeBelow target keys value) s =
        Eval.runOn (Eval.change (assign target keys value)) s ∧
      Eval.AllOrNothing s (Eval.writeBelow target keys value)
        (AgreeOff (s.locationsBelow target keys) s)) ∧
    ∀ name : String,
      Eval.runOn (Eval.writeKeys name keys value) s =
        Eval.runOn (Eval.change fun s => (s.setKeys name keys value).map fun t => ((), t)) s ∧
      Eval.AllOrNothing s (Eval.writeKeys name keys value)
        (AgreeOff (s.location name :: s.locationsBelow (s.start name) keys) s) := by
  constructor
  · intro target
    have hrun := Eval.runOn_writeBelow target keys value s
    exact ⟨hrun, allOrNothing_writeBelow target keys value s⟩
  · intro name
    have hrun := Eval.runOn_writeKeys name keys value s
    exact ⟨hrun, allOrNothing_writeKeys name keys value s⟩

end Store

end TextAdventure
