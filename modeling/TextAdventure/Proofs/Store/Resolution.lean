import TextAdventure.Store.Path

/-! # Resolving a path before a write

A write meets the values that its path resolves to before it. Each entity among them is visited with
the key that follows it, and the property of that name is set once the rest of the path is written. The
other containers on the way are rebuilt around what is written below them.
-/
namespace TextAdventure

namespace Store

variable {s t : Store} {target u value : Value} {key : String}

/-- What a key leads to, where nothing counts as nil. -/
def current (s : Store) (v : Value) (key : String) : Value :=
  (s.member? v key).getD .nil

/-- What keys lead to, if each of them leads somewhere. -/
def reach (s : Store) (v : Value) (keys : List String) : Option Value :=
  keys.foldlM (fun v key => s.member? v key) v

theorem reach_cons (v : Value) (key : String) (keys : List String) :
    s.reach v (key :: keys) = (s.member? v key).bind fun w => s.reach w keys :=
  rfl

/-- An entity on a path, the key read through it and the keys after that one. -/
structure Visit where
  entity : String
  key : String
  rest : List String

namespace Visit

/-- The property that a visit reads and later sets. -/
def slot (visit : Visit) : String × String :=
  (visit.entity, visit.key)

def keys (visit : Visit) : List String :=
  visit.key :: visit.rest

end Visit

/-- The visit of a value that stands before a key, if the value is an entity. -/
def visitAt (v : Value) (key : String) (rest : List String) : List Visit :=
  match v with
  | .entity id => [⟨id, key, rest⟩]
  | _ => []

/-- The entities met before the last key, in the order of the path. -/
def visits (s : Store) : Value → List String → List Visit
  | _, [] => []
  | v, key :: keys => visitAt v key keys ++ s.visits (s.current v key) keys

/-- Whether a key that names a position in a list is at most the length of the list. -/
def inBounds : Value → String → Bool
  | .list items, key => (listIndex? key).all (· ≤ items.length)
  | _, _ => true

/-- Whether every list met on a path is indexed at most at its length. -/
def indexesBounded (s : Store) : Value → List String → Bool
  | _, [] => true
  | v, key :: keys => inBounds v key && s.indexesBounded (s.current v key) keys

/-- Puts what was written below a key back into its container, if the key can be written at all. -/
def rebuild (target : Value) (key : String) (updated : Value) (s : Store) : Option (Value × Store) :=
  match target with
  | .entity id => some (.entity id, s.setProperty id key updated)
  | .map layout entries =>
    some (.mapWith s.freshIdentity.1 key updated layout entries, s.freshIdentity.2)
  | .nil => some (.mapWith s.freshIdentity.1 key updated .empty [], s.freshIdentity.2)
  | .list items => (listIndex? key).map fun i =>
    (.list (if i < items.length then items.set i updated else items ++ [updated]), s)
  | _ => none

theorem listIndex?_length : listIndex? "length" = none := by
  decide +kernel

theorem assign_cons_eq_ok_iff {keys : List String} :
    s.assign target (key :: keys) value = .ok (u, t) ↔
      ∃ updated t', s.assign (s.current target key) keys value = .ok (updated, t') ∧
        t'.rebuild target key updated = some (u, t) := by
  cases target with
  | entity id =>
    simp [assign, Error.bind_eq_ok_iff, rebuild, current, member?, pure, Except.pure]
  | map layout entries =>
    simp [assign, Error.bind_eq_ok_iff, rebuild, current, member?, pure, Except.pure]
  | nil =>
    simp [assign, Error.bind_eq_ok_iff, rebuild, current, member?, pure, Except.pure]
  | list items =>
    cases hi : listIndex? key with
    | none => simp [assign, rebuild, hi]
    | some i =>
      have hkey : key ≠ "length" := by
        intro heq
        rw [heq, listIndex?_length] at hi
        cases hi
      simp [assign, Error.bind_eq_ok_iff, rebuild, current, member?, pure, Except.pure, hi, hkey]
  | _ => simp [assign, rebuild]

theorem scopes_of_rebuild {v : Value} (h : s.rebuild target key v = some (u, t)) :
    t.scopes = s.scopes := by
  cases target with
  | list items =>
    obtain ⟨i, _, he⟩ := Option.map_eq_some_iff.mp h
    cases he
    rfl
  | _ => cases h <;> rfl

theorem property?_of_rebuild {v : Value} (hne : ∀ id, target ≠ .entity id)
    (h : s.rebuild target key v = some (u, t)) (id k : String) :
    t.property? id k = s.property? id k := by
  cases target with
  | entity id => exact absurd rfl (hne id)
  | list items =>
    obtain ⟨i, _, he⟩ := Option.map_eq_some_iff.mp h
    cases he
    rfl
  | _ => cases h <;> rfl

theorem property?_of_rebuild_of_ne {v : Value} {k : String} (hne : k ≠ key)
    (h : s.rebuild target key v = some (u, t)) (id : String) :
    t.property? id k = s.property? id k := by
  cases target with
  | entity id' =>
    cases h
    apply property?_setProperty_of_ne
    intro heq
    exact hne (congrArg Prod.snd heq)
  | _ => exact property?_of_rebuild (fun _ heq => by cases heq) h id k

theorem member?_of_rebuild {v : Value} (hne : ∀ id, target ≠ .entity id)
    (hb : inBounds target key = true) (h : s.rebuild target key v = some (u, t)) (t' : Store) :
    t'.member? u key = some v := by
  cases target with
  | entity id => exact absurd rfl (hne id)
  | list items =>
    obtain ⟨i, hi, he⟩ := Option.map_eq_some_iff.mp h
    cases he
    have hkey : key ≠ "length" := by
      intro heq
      rw [heq, listIndex?_length] at hi
      cases hi
    have hle : i ≤ items.length := by simpa [inBounds, hi] using hb
    by_cases hlt : i < items.length
    · simp [member?, hkey, hi, hlt]
    · have heq : i = items.length := by omega
      simp [member?, hkey, hi, heq]
  | map layout entries =>
    cases h
    simp [member?, Value.mapWith]
  | nil =>
    cases h
    simp [member?, Value.mapWith]
  | _ => cases h

theorem rebuild_other {v : Value} (hne : ∀ id, target ≠ .entity id)
    (h : s.rebuild target key v = some (u, t)) (w : Value) :
    ∃ u', s.rebuild target key w = some (u', t) := by
  cases target with
  | entity id => exact absurd rfl (hne id)
  | list items =>
    obtain ⟨i, hi, he⟩ := Option.map_eq_some_iff.mp h
    cases he
    simp [rebuild, hi]
  | map layout entries =>
    cases h
    exact ⟨_, rfl⟩
  | nil =>
    cases h
    exact ⟨_, rfl⟩
  | _ => cases h

theorem scopes_of_assign {keys : List String} (h : s.assign target keys value = .ok (u, t)) :
    t.scopes = s.scopes := by
  induction keys generalizing target u t with
  | nil =>
    cases h
    rfl
  | cons key keys ih =>
    obtain ⟨updated, t', hd, hr⟩ := assign_cons_eq_ok_iff.1 h
    rw [scopes_of_rebuild hr, ih hd]

theorem entity_or (v : Value) : (∃ id, v = .entity id) ∨ ∀ id, v ≠ .entity id := by
  cases v with
  | entity id => exact .inl ⟨id, rfl⟩
  | _ => exact .inr fun id h => by cases h

theorem visitAt_eq_nil_iff {v : Value} {rest : List String} :
    visitAt v key rest = [] ↔ ∀ id, v ≠ .entity id := by
  cases v <;> simp [visitAt]

theorem reach_of_assign {keys : List String} (h : s.assign target keys value = .ok (u, t))
    (hv : s.visits target keys = []) (hb : s.indexesBounded target keys = true) (t' : Store) :
    t'.reach u keys = some value := by
  induction keys generalizing target u t with
  | nil =>
    cases h
    rfl
  | cons key keys ih =>
    obtain ⟨updated, t1, hd, hr⟩ := assign_cons_eq_ok_iff.1 h
    obtain ⟨hat, hrest⟩ := List.append_eq_nil_iff.mp hv
    obtain ⟨hkey, hkeys⟩ := (Bool.and_eq_true _ _).mp hb
    have hne := visitAt_eq_nil_iff.mp hat
    rw [reach_cons, member?_of_rebuild hne hkey hr t', Option.bind_some]
    exact ih hd hrest hkeys

/-- The store after such a write does not depend on the value. -/
theorem assign_other {keys : List String} (h : s.assign target keys value = .ok (u, t))
    (hv : s.visits target keys = []) (w : Value) :
    ∃ u', s.assign target keys w = .ok (u', t) := by
  induction keys generalizing target u t with
  | nil =>
    cases h
    exact ⟨w, rfl⟩
  | cons key keys ih =>
    obtain ⟨updated, t1, hd, hr⟩ := assign_cons_eq_ok_iff.1 h
    obtain ⟨hat, hrest⟩ := List.append_eq_nil_iff.mp hv
    have hne := visitAt_eq_nil_iff.mp hat
    obtain ⟨u1, h1⟩ := ih hd hrest
    obtain ⟨u', hu⟩ := rebuild_other hne hr u1
    exact ⟨u', assign_cons_eq_ok_iff.2 ⟨u1, t1, h1, hu⟩⟩

end Store

end TextAdventure
