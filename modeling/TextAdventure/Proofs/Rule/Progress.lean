import TextAdventure.Proofs.Store.ReadBack
import TextAdventure.Rule.Eval

/-! # Progress in the store

As long as nothing but rules defines or assigns the name that progress is bound to, it stands for a map
in the globals from every scope, so what a rule notes under its key is found again later.
-/
namespace TextAdventure

namespace Store

variable {s t u : Store} {key : String}

/-- No open scope defines the name that progress is bound to. -/
def Unshadowed (s : Store) : Prop :=
  ∀ scope ∈ s.scopes, s.read Rule.progressName scope = none

/-- The name that progress is bound to stands for a map of the globals, or for nothing yet. -/
structure KeepsProgress (s : Store) : Prop where
  unshadowed : s.Unshadowed
  isMap : ∀ v ∈ Dictionary.get? Rule.progressName s.globals, ∃ layout state, v = .map layout state

/-- What leads from one store to another defines the name that progress is bound to in no open scope
and does not assign it. -/
structure SparesProgress (s t : Store) : Prop where
  unshadowed : s.Unshadowed → t.Unshadowed
  globals : Dictionary.get? Rule.progressName t.globals = Dictionary.get? Rule.progressName s.globals

theorem Unshadowed.lookupName (h : s.Unshadowed) :
    s.lookupName Rule.progressName = Dictionary.get? Rule.progressName s.globals := by
  have hnone : s.scopes.findSome? (s.read Rule.progressName) = none :=
    List.findSome?_eq_none_iff.mpr h
  rw [Store.lookupName, hnone, Option.none_or]

theorem Unshadowed.bindAt_owner (h : s.Unshadowed) (ht : t.scopes = s.scopes) (v : Value) :
    t.bindAt (s.owner Rule.progressName) Rule.progressName v =
      { t with globals := Dictionary.insert Rule.progressName v t.globals } := by
  have howner : s.owner Rule.progressName = s.scopes.length := by
    rw [owner, List.findIdx_eq_length]
    intro scope hscope
    rw [h scope hscope]
    rfl
  have hnone : t.scopes[s.scopes.length]? = none := by
    rw [ht, List.getElem?_eq_none (Nat.le_refl _)]
  rw [bindAt, howner, hnone]

namespace SparesProgress

theorem of_eq (hscopes : t.scopes = s.scopes) (hentities : t.entities = s.entities)
    (hglobals : t.globals = s.globals) : SparesProgress s t where
  unshadowed h scope hscope := by
    rw [hscopes] at hscope
    have hread := h scope hscope
    cases scope with
    | block bindings => exact hread
    | entity id =>
      change t.property? id Rule.progressName = none
      rw [property?, properties?, hentities]
      exact hread
  globals := by rw [hglobals]

theorem keepsProgress (h : SparesProgress s t) (hs : s.KeepsProgress) : t.KeepsProgress where
  unshadowed := h.unshadowed hs.unshadowed
  isMap v hv := by
    rw [h.globals] at hv
    exact hs.isMap v hv

theorem progress_eq (h : SparesProgress s t) (hs : s.KeepsProgress) (key : String) :
    Rule.progress key t = Rule.progress key s := by
  rw [Rule.progress, Rule.progress, (h.unshadowed hs.unshadowed).lookupName,
    hs.unshadowed.lookupName, h.globals]

end SparesProgress

/-- What the rules have noted, by their keys. -/
def noted (s : Store) : Bindings :=
  match Dictionary.get? Rule.progressName s.globals with
  | some (.map _ state) => state
  | _ => []

/-- The store after something is noted under a key, in a map of some layout. -/
def note (layout : Layout) (key : String) (n : Nat) (s : Store) : Store :=
  { s with
    globals := Dictionary.insert Rule.progressName
      (.map layout (Dictionary.insert key (.ofNat n) s.noted)) s.globals
    nextIdentity := s.nextIdentity + 1 }

@[simp] theorem get?_globals_note (layout : Layout) (key : String) (n : Nat) (s : Store) :
    Dictionary.get? Rule.progressName (s.note layout key n).globals =
      some (.map layout (Dictionary.insert key (.ofNat n) s.noted)) :=
  Dictionary.get?_insert_self _ _ _

@[simp] theorem noted_note (layout : Layout) (key : String) (n : Nat) (s : Store) :
    (s.note layout key n).noted = Dictionary.insert key (.ofNat n) s.noted := by
  rw [noted, get?_globals_note]

theorem Unshadowed.progress_eq (h : s.Unshadowed) (key : String) :
    Rule.progress key s = ((Dictionary.get? key s.noted).bind Value.int?).getD 0 := by
  rw [Rule.progress, h.lookupName, noted]
  rcases Dictionary.get? Rule.progressName s.globals with _ | v
  · rfl
  · cases v <;> rfl

namespace KeepsProgress

variable (h : s.KeepsProgress) (key : String) (n : Nat)
include h

theorem assign_start (v : Value) :
    ∃ layout, s.assign (s.start Rule.progressName) [key] v =
      .ok (.map layout (Dictionary.insert key v s.noted), s.freshIdentity.2) := by
  rw [start, h.unshadowed.lookupName, noted]
  cases hstate : Dictionary.get? Rule.progressName s.globals with
  | none => exact ⟨_, rfl⟩
  | some w =>
    obtain ⟨layout, state, rfl⟩ := h.isMap w hstate
    exact ⟨_, rfl⟩

/-- Progress can always be noted. Nothing else changes but that the map gets a new mark. -/
theorem runOn_setProgress :
    ∃ layout, Eval.runOn (Rule.setProgress key n) s = (.ok (), s.note layout key n) := by
  obtain ⟨layout, hassign⟩ := h.assign_start key (.ofNat n)
  have hbind := h.unshadowed.bindAt_owner (t := s.freshIdentity.2) rfl
    (.map layout (Dictionary.insert key (.ofNat n) s.noted))
  have hkeys := setKeys_eq_ok_iff.2 ⟨_, _, hassign, hbind⟩
  refine ⟨layout, ?_⟩
  rw [Rule.setProgress, Eval.runOn_change, hkeys]
  rfl

theorem note (layout : Layout) : (s.note layout key n).KeepsProgress where
  unshadowed := h.unshadowed
  isMap v hv := by
    rw [get?_globals_note] at hv
    cases hv
    exact ⟨_, _, rfl⟩

theorem progress_note_self (layout : Layout) :
    Rule.progress key (s.note layout key n) = Number.clampInt64 n := by
  rw [(h.note key n layout).unshadowed.progress_eq, noted_note, Dictionary.get?_insert_self]
  rfl

theorem progress_note_of_ne (layout : Layout) {other : String} (hne : other ≠ key) :
    Rule.progress other (s.note layout key n) = Rule.progress other s := by
  rw [(h.note key n layout).unshadowed.progress_eq, h.unshadowed.progress_eq, noted_note,
    Dictionary.get?_insert_of_ne hne]

end KeepsProgress

theorem progress_setProgress_of_ne {other : String} (hne : other ≠ key) (hkey : key ≠ Rule.progressName)
    (n : Nat) (s : Store) :
    Rule.progress other (Eval.runOn (Rule.setProgress key n) s).2 = Rule.progress other s := by
  rw [Rule.setProgress, Eval.runOn_change]
  cases hset : s.setKeys Rule.progressName [key] (.ofNat n) with
  | error e => rfl
  | ok t =>
    obtain ⟨w, t', hassign, rfl⟩ := setKeys_eq_ok_iff.1 hset
    obtain ⟨updated, s', hwritten, hrebuild⟩ := assign_cons_eq_ok_iff.1 hassign
    cases hwritten
    have howner : t'.owner Rule.progressName = s.owner Rule.progressName := by
      apply owner_eq_of_defines
      rw [scopes_of_assign hassign]
      apply List.map_congr_left
      intro scope _
      cases scope with
      | block bindings => rfl
      | entity id =>
        have hproperty := property?_of_rebuild_of_ne (Ne.symm hkey) hrebuild id
        exact congrArg Option.isSome hproperty
    change Rule.progress other (t'.bindAt _ _ w) = _
    rw [← howner, Rule.progress, lookupName_bindAt_owner, Rule.progress]
    rw [start] at hrebuild
    cases hlookup : s.lookupName Rule.progressName with
    | none =>
      rw [hlookup] at hrebuild
      cases hrebuild
      simp [Value.mapWith, hne]
    | some v =>
      rw [hlookup] at hrebuild
      cases v with
      | map layout entries =>
        cases hrebuild
        simp [Value.mapWith, hne]
      | nil =>
        cases hrebuild
        simp [Value.mapWith, hne]
      | entity id =>
        cases hrebuild
        rfl
      | list items =>
        obtain ⟨i, _, heq⟩ := Option.map_eq_some_iff.mp hrebuild
        cases heq
        rfl
      | _ => cases hrebuild

end Store

end TextAdventure
