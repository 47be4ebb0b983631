import TextAdventure.Command
import TextAdventure.Entity

/-! # Scenes

A scene holds the verbs that can be used and the entities around the player, in named groups.
-/
namespace TextAdventure

/-- Keeps the first of all items with an equal key. -/
def firstOfEach {α : Type} (key : α → String) : List α → List α
  | [] => []
  | a :: as => a :: (firstOfEach key as).filter fun b => key b ≠ key a

theorem mem_of_mem_firstOfEach {α : Type} {key : α → String} {a : α} {as : List α}
    (h : a ∈ firstOfEach key as) : a ∈ as := by
  induction as with
  | nil => cases h
  | cons b bs ih =>
    rcases List.mem_cons.mp h with rfl | h
    · exact List.mem_cons_self
    · exact List.mem_cons_of_mem b (ih (List.mem_filter.mp h).1)

theorem mem_firstOfEach_iff {α : Type} {key : α → String} {a : α} {as : List α} :
    a ∈ firstOfEach key as ↔ as.find? (fun b => key b = key a) = some a := by
  induction as with
  | nil => simp [firstOfEach]
  | cons b bs ih =>
    by_cases hb : key b = key a
    · simp [firstOfEach, hb, eq_comm]
    · have hne : a ≠ b := fun h => hb (h ▸ rfl)
      simp [firstOfEach, hb, hne, ih, Ne.symm hb]

theorem nodup_map_firstOfEach {α : Type} (key : α → String) (as : List α) :
    ((firstOfEach key as).map key).Nodup := by
  induction as with
  | nil => exact List.nodup_nil
  | cons a as ih =>
    have hsub := (List.filter_sublist (p := fun b => key b ≠ key a) (l := firstOfEach key as)).map key
    refine List.nodup_cons.mpr ⟨?_, hsub.nodup ih⟩
    intro h
    obtain ⟨b, hb, heq⟩ := List.mem_map.mp h
    simpa [heq] using (List.mem_filter.mp hb).2

structure Scene where
  verbs : VerbTable
  groups : MultiDict Entity

namespace Scene

def new (verbs : VerbTable) : Scene :=
  ⟨verbs, .empty⟩

def add (group : String) (e : Entity) (scene : Scene) : Scene :=
  { scene with groups := scene.groups.insert group e }

def entities (scene : Scene) : List Entity :=
  firstOfEach Entity.id scene.groups.values

def entity? (id : String) (scene : Scene) : Option Entity :=
  scene.groups.values.find? fun e => e.id = id

/-- The entities a verb takes its objects from: those of its groups, or all if it names none. -/
def candidates (role : Role) (v : Verb) (scene : Scene) : List Entity :=
  match v.contextsFor role with
  | [] => scene.entities
  | groups => firstOfEach Entity.id (groups.flatMap fun group => scene.groups.get group)

theorem mem_values_of_mem_candidates {scene : Scene} {role : Role} {v : Verb} {e : Entity}
    (h : e ∈ scene.candidates role v) : e ∈ scene.groups.values := by
  unfold candidates at h
  split at h
  · exact mem_of_mem_firstOfEach h
  · obtain ⟨group, _, he⟩ := List.mem_flatMap.mp (mem_of_mem_firstOfEach h)
    exact MultiDict.mem_values_of_mem_get he

def verbsWhere (test : Verb → Bool) (scene : Scene) : List Verb :=
  (Dictionary.values scene.verbs).filter test

def modifierValues (kind : String) (scene : Scene) : List String :=
  firstOfEach id (scene.entities.flatMap fun e => e.modifiers.get kind)

end Scene

end TextAdventure
