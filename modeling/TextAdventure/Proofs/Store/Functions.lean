import TextAdventure.Proofs.Store.Realm

/-! # The functions that a store holds

Evaluating makes no functions. So the values in which only functions with some property occur are a realm,
at whatever stage and with whatever marks.
-/
namespace TextAdventure

variable {Q : Function → Prop}

namespace Value

/-- The function occurs in the value. -/
inductive Mentions (f : Function) : Value → Prop
  | function : Mentions f (.function f)
  | list {items : List Value} {v : Value} (hv : v ∈ items) (h : Mentions f v) : Mentions f (.list items)
  | map {layout : Layout} {entries : List (String × Value)} {entry : String × Value}
    (hentry : entry ∈ entries) (h : Mentions f entry.2) : Mentions f (.map layout entries)

/-- Only functions with the property occur in the value. -/
def Only (Q : Function → Prop) (v : Value) : Prop :=
  ∀ f, v.Mentions f → Q f

/-- The same for all values of some entries. -/
def OnlyIn (Q : Function → Prop) (entries : List (String × Value)) : Prop :=
  ∀ entry ∈ entries, entry.2.Only Q

variable {items : List Value} {layout : Layout} {entries : List (String × Value)} {key : String}
  {v w : Value}

theorem only_of_isPlain (h : v.isPlain = true) : v.Only Q := by
  intro f hf
  cases hf <;> cases h

@[simp] theorem only_function_iff {f : Function} : Only Q (.function f) ↔ Q f := by
  refine ⟨fun h => h f .function, ?_⟩
  rintro hf _ ⟨⟩
  exact hf

@[simp] theorem only_list_iff : Only Q (.list items) ↔ ∀ v ∈ items, v.Only Q := by
  refine ⟨fun h v hv f hf => h f (.list hv hf), ?_⟩
  rintro h f (_ | ⟨hv, hf⟩)
  exact h _ hv f hf

@[simp] theorem only_map_iff : Only Q (.map layout entries) ↔ OnlyIn Q entries := by
  refine ⟨fun h entry hentry f hf => h f (.map hentry hf), ?_⟩
  rintro h f (_ | _ | ⟨hentry, hf⟩)
  exact h _ hentry f hf

theorem OnlyIn.insert (h : OnlyIn Q entries) (key : String) (hv : v.Only Q) :
    OnlyIn Q (Dictionary.insert key v entries) := by
  intro entry hentry
  rcases Dictionary.mem_insert hentry with rfl | hentry
  · exact hv
  · exact h entry hentry

mutual

theorem Only.hold : ∀ {v : Value} (next : Nat), v.Only Q → (v.hold next).1.Only Q
  | .nil, _, h | .bool _, _, h | .int _, _, h | .float _, _, h | .string _, _, h | .entity _, _, h
  | .function _, _, h => by
    rw [Value.hold]
    · exact h
    all_goals nofun
  | .list items, next, h => by
    rw [Value.hold]
    exact only_list_iff.mpr (only_holdAll next (only_list_iff.mp h))
  | .map layout entries, next, h => by
    rw [Value.hold]
    split
    · exact h
    · exact only_map_iff.mpr (onlyIn_holdEntries (next + 1) (only_map_iff.mp h))

theorem only_holdAll : ∀ {vs : List Value} (next : Nat), (∀ v ∈ vs, v.Only Q) →
    ∀ v ∈ (holdAll vs next).1, v.Only Q
  | [], _, _ => by
    rw [holdAll]
    exact nofun
  | v :: vs, next, h => by
    obtain ⟨hv, hvs⟩ := List.forall_mem_cons.mp h
    rw [holdAll]
    exact List.forall_mem_cons.mpr ⟨hv.hold next, only_holdAll _ hvs⟩

theorem onlyIn_holdEntries : ∀ {entries : List (String × Value)} (next : Nat), OnlyIn Q entries →
    OnlyIn Q (holdEntries entries next).1
  | [], _, _ => by
    rw [holdEntries]
    exact nofun
  | (key, v) :: rest, next, h => by
    obtain ⟨hv, hrest⟩ := List.forall_mem_cons.mp h
    rw [holdEntries]
    exact List.forall_mem_cons.mpr ⟨hv.hold next, onlyIn_holdEntries _ hrest⟩

end

end Value

/-- Values in which only functions with the property occur. -/
def Realm.functions (Q : Function → Prop) : Realm where
  Stage := Unit
  Le _ _ := True
  Has _ v := v.Only Q
  Free _ _ := True
  refl := trivial
  trans _ _ := trivial
  mono _ h := h
  plain := Value.only_of_isPlain
  list_iff := Value.only_list_iff
  entry := Value.only_map_iff.mp
  ofEntries h := Value.only_map_iff.mpr fun entry hentry => h entry (Dictionary.mem_ofList hentry)
  hold _ h := ⟨(), trivial, trivial, h.hold _⟩
  mapWith _ hm hv := ⟨(), trivial, trivial, Value.only_map_iff.mpr ((Value.only_map_iff.mp hm).insert _ hv)⟩

/-- Only functions with the property occur in the store. -/
structure Store.Only (Q : Function → Prop) (s : Store) : Prop where
  globals : Value.OnlyIn Q s.globals
  scopes : ∀ bindings, .block bindings ∈ s.scopes → Value.OnlyIn Q bindings
  entities : ∀ entry ∈ s.entities, Value.OnlyIn Q entry.2

theorem Store.Only.at {s : Store} (h : s.Only Q) : s.At (.functions Q) () :=
  ⟨⟨h.globals, h.scopes, h.entities⟩, trivial⟩

end TextAdventure
