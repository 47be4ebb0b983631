import TextAdventure.Proofs.Store.Locality

/-! # Names that a nearer frame defines

A write goes to the nearest frame that defines its name. So a frame protects the frames further out:
whatever is evaluated, the local bindings of a name that a nearer frame defines stay as they are. Nothing
is removed either: places that hold a value hold one afterwards, and entities stay.
-/
namespace TextAdventure

namespace Store

variable {s t u : Store} {name : String} {scope : Scope} {depth : Nat}

/-- The frame found after passing `depth` scopes has bindings of its own. Past the last scope these are
the globals. -/
def IsLocal (depth : Nat) (s : Store) : Prop :=
  (s.kinds ++ [.own])[depth]? = some .own

instance (depth : Nat) (s : Store) : Decidable (s.IsLocal depth) := by
  unfold IsLocal
  infer_instance

theorem isLocal_of_kinds (h : t.kinds = s.kinds) : t.IsLocal depth ↔ s.IsLocal depth := by
  rw [IsLocal, IsLocal, h]

theorem bindingAt_openScope (scope : Scope) (depth : Nat) (name : String) (s : Store) :
    (s.openScope scope).bindingAt (depth + 1) name = s.bindingAt depth name := by
  unfold bindingAt
  rw [openScope, List.getElem?_cons_succ]
  cases s.scopes[depth]? with
  | none => rfl
  | some other => cases other <;> rfl

theorem bindingAt_openScope_zero (scope : Scope) (name : String) (s : Store) :
    (s.openScope scope).bindingAt 0 name = s.read name scope := by
  cases scope <;> rfl

theorem bindingAt_closeScope (depth : Nat) (name : String) (s : Store) :
    s.closeScope.bindingAt depth name = s.bindingAt (depth + 1) name := by
  unfold bindingAt
  rw [closeScope, List.getElem?_tail]
  cases s.scopes[depth + 1]? with
  | none => rfl
  | some other => cases other <;> rfl

theorem bindingAt_eq_valueAt (depth : Nat) (name : String) (s : Store) :
    s.bindingAt depth name = s.valueAt (s.locationAt depth name) := by
  unfold bindingAt locationAt
  cases hd : s.scopes[depth]? with
  | none => rfl
  | some other =>
    cases other with
    | entity id => rfl
    | block bindings => simp [valueAt, hd, read]

theorem bindingAt_of_same (hscopes : t.scopes = s.scopes) (hglobals : t.globals = s.globals)
    (hentities : t.entities = s.entities) (depth : Nat) (name : String) :
    t.bindingAt depth name = s.bindingAt depth name := by
  cases s
  cases t
  cases hscopes
  cases hglobals
  cases hentities
  rfl

theorem locationAt_of_kinds (h : t.kinds = s.kinds) (depth : Nat) (name : String) :
    t.locationAt depth name = s.locationAt depth name := by
  have hkind : (t.scopes[depth]?).map Scope.kind = (s.scopes[depth]?).map Scope.kind := by
    rw [← List.getElem?_map, ← List.getElem?_map]
    exact congrArg (fun kinds : List FrameKind => kinds[depth]?) h
  unfold locationAt
  cases ht : t.scopes[depth]? with
  | none =>
    cases hs : s.scopes[depth]? with
    | none => rfl
    | some scope => simp [ht, hs] at hkind
  | some scope =>
    cases hs : s.scopes[depth]? with
    | none => simp [ht, hs] at hkind
    | some scope' => cases scope <;> cases scope' <;> simp_all [Scope.kind]

theorem isDefined_iff : s.isDefined name = true ↔ ∃ depth, (s.bindingAt depth name).isSome := by
  constructor
  · intro h
    refine ⟨s.owner name, ?_⟩
    rwa [isDefined, lookupName_eq_bindingAt] at h
  · rintro ⟨depth, h⟩
    unfold bindingAt at h
    cases hd : s.scopes[depth]? with
    | none =>
      rw [hd] at h
      simp only [isDefined, lookupName, Option.isSome_or, Bool.or_eq_true]
      exact .inr h
    | some scope =>
      rw [hd] at h
      simp only [isDefined, lookupName, Option.isSome_or, Bool.or_eq_true, List.findSome?_isSome_iff]
      exact .inl ⟨scope, List.mem_of_getElem? hd, h⟩

theorem owner_le_length (name : String) (s : Store) : s.owner name ≤ s.scopes.length :=
  List.findIdx_le_length

theorem owner_le (h : (s.bindingAt depth name).isSome) : s.owner name ≤ depth := by
  apply Nat.le_of_not_lt
  intro hlt
  have hlen : depth < s.scopes.length := Nat.lt_of_lt_of_le hlt (owner_le_length name s)
  have hnot := List.not_of_lt_findIdx hlt
  rw [bindingAt, List.getElem?_eq_getElem hlen] at h
  simp [h] at hnot

theorem locationAt_of_isLocal (h : s.IsLocal depth) (name : String) :
    s.locationAt depth name = .scope depth name ∨
      depth = s.scopes.length ∧ s.locationAt depth name = .global name := by
  have hlast : depth < s.kinds.length + 1 := by
    simpa using (List.getElem?_eq_some_iff.mp h).1
  have hlength : s.kinds.length = s.scopes.length := List.length_map Scope.kind
  unfold locationAt
  cases hd : s.scopes[depth]? with
  | none =>
    have hle : s.scopes.length ≤ depth := List.getElem?_eq_none_iff.mp hd
    exact .inr ⟨by omega, rfl⟩
  | some scope =>
    have hlt : depth < s.kinds.length := hlength ▸ (List.getElem?_eq_some_iff.mp hd).1
    rw [IsLocal, List.getElem?_append_left hlt, kinds, List.getElem?_map, hd] at h
    cases scope with
    | block bindings => exact .inl rfl
    | entity id => cases h

theorem eq_of_locationAt_eq_scope {d : Nat} {other : String}
    (h : s.locationAt d other = .scope depth name) : d = depth ∧ other = name := by
  unfold locationAt at h
  split at h <;> cases h
  exact ⟨rfl, rfl⟩

theorem eq_of_locationAt_eq_global {d : Nat} {other : String}
    (h : s.locationAt d other = .global name) : s.scopes.length ≤ d ∧ other = name := by
  unfold locationAt at h
  split at h <;> cases h
  next hd => exact ⟨List.getElem?_eq_none_iff.mp hd, rfl⟩

theorem locationAt_ne_property (h : s.IsLocal depth) (id key : String) :
    s.locationAt depth name ≠ .property id key := by
  rcases locationAt_of_isLocal h name with heq | ⟨_, heq⟩ <;> simp [heq]

theorem eq_of_locationAt_eq {d : Nat} {other : String} (h : s.IsLocal depth)
    (hd : d ≤ s.scopes.length) (heq : s.locationAt d other = s.locationAt depth name) :
    d = depth ∧ other = name := by
  rcases locationAt_of_isLocal h name with hl | ⟨rfl, hl⟩
  · exact eq_of_locationAt_eq_scope (heq.trans hl)
  · obtain ⟨hle, hname⟩ := eq_of_locationAt_eq_global (heq.trans hl)
    exact ⟨Nat.le_antisymm hd hle, hname⟩

/-- Nothing is removed: the frames are of the same kinds, entities stay, and so do the places that hold a
value. -/
structure Grows (s t : Store) : Prop where
  kinds : t.kinds = s.kinds
  entities : ∀ id, s.hasEntity id = true → t.hasEntity id = true
  valueAt : ∀ l, (s.valueAt l).isSome → (t.valueAt l).isSome

namespace Grows

theorem refl (s : Store) : Grows s s :=
  ⟨rfl, fun _ h => h, fun _ h => h⟩

theorem of_same (hscopes : t.scopes = s.scopes) (hglobals : t.globals = s.globals)
    (hentities : t.entities = s.entities) : Grows s t := by
  cases s
  cases t
  cases hscopes
  cases hglobals
  cases hentities
  exact ⟨rfl, fun _ h => h, fun l h => by cases l <;> exact h⟩

theorem trans (hst : Grows s t) (htu : Grows t u) : Grows s u where
  kinds := htu.kinds.trans hst.kinds
  entities id h := htu.entities id (hst.entities id h)
  valueAt l h := htu.valueAt l (hst.valueAt l h)

theorem bindingAt (h : Grows s t) (hs : (s.bindingAt depth name).isSome) :
    (t.bindingAt depth name).isSome := by
  rw [bindingAt_eq_valueAt] at hs ⊢
  rw [locationAt_of_kinds h.kinds]
  exact h.valueAt _ hs

theorem isDefined (h : Grows s t) (hs : s.isDefined name = true) : t.isDefined name = true := by
  obtain ⟨depth, hdepth⟩ := isDefined_iff.mp hs
  exact isDefined_iff.mpr ⟨depth, h.bindingAt hdepth⟩

theorem of_agreeOff {l : Location} (h : AgreeOff [l] s t) (hl : (t.valueAt l).isSome) :
    Grows s t where
  kinds := frames_eq_iff.mp h.frames
  entities id hid := by
    by_cases hkey : ∃ key, l = .property id key
    · obtain ⟨key, rfl⟩ := hkey
      have hp : (t.property? id key).isSome := hl
      rw [property?] at hp
      rw [hasEntity, Dictionary.contains]
      cases hq : Dictionary.get? id t.entities with
      | none => simp [properties?, hq] at hp
      | some properties => rfl
    · have hoff : ∀ key, Location.property id key ∉ [l] := by
        intro key hm
        exact hkey ⟨key, (List.mem_singleton.mp hm).symm⟩
      have hsame : Dictionary.get? id t.entities = Dictionary.get? id s.entities :=
        h.properties? id hoff
      rwa [hasEntity, Dictionary.contains, hsame]
  valueAt l' hl' := by
    by_cases hne : l' = l
    · rwa [hne]
    · rwa [h.valueAt l' (fun hm => hne (List.mem_singleton.mp hm))]

theorem setProperty (id key : String) (v : Value) (s : Store) : Grows s (s.setProperty id key v) := by
  apply of_agreeOff (agreeOff_setProperty id key v s)
  simp [Store.valueAt]

theorem bindAt (depth : Nat) (name : String) (v : Value) (s : Store) :
    Grows s (s.bindAt depth name v) := by
  apply of_agreeOff (agreeOff_bindAt depth name v s)
  rw [← locationAt_of_kinds (kinds_bindAt depth name v s), ← bindingAt_eq_valueAt,
    bindingAt_bindAt]
  rfl

theorem of_rebuild {target v w : Value} {key : String} (h : s.rebuild target key v = some (w, t)) :
    Grows s t := by
  cases target with
  | list items =>
    obtain ⟨i, _, he⟩ := Option.map_eq_some_iff.mp h
    cases he
    exact .refl s
  | entity id =>
    cases h
    exact setProperty id key v s
  | map layout entries =>
    cases h
    exact of_same rfl rfl rfl
  | nil =>
    cases h
    exact of_same rfl rfl rfl
  | _ => cases h

theorem of_assign {target value v : Value} {keys : List String}
    (h : s.assign target keys value = .ok (v, t)) : Grows s t := by
  induction keys generalizing target v t with
  | nil =>
    cases h
    exact .refl s
  | cons key keys ih =>
    obtain ⟨updated, t', hd, hr⟩ := assign_cons_eq_ok_iff.1 h
    exact (ih hd).trans (of_rebuild hr)

theorem of_setKeys {keys : List String} {value : Value} (h : s.setKeys name keys value = .ok t) :
    Grows s t := by
  obtain ⟨u, t', ha, rfl⟩ := setKeys_eq_ok_iff.1 h
  exact (of_assign ha).trans (bindAt _ _ _ t')

theorem closeScope (h : Grows (s.openScope scope) t) : Grows s t.closeScope where
  kinds := kinds_closeScope_of_openScope h.kinds
  entities := h.entities
  valueAt l hl := by
    cases l with
    | global other => exact h.valueAt (.global other) hl
    | property id key => exact h.valueAt (.property id key) hl
    | scope i other =>
      have hopen := h.valueAt (.scope (i + 1) other) hl
      rwa [Store.valueAt, ← List.getElem?_tail] at hopen

end Grows

/-- Nothing is removed, and the binding of a name is the same in every local frame further out than one
that defined the name. -/
structure Shields (s t : Store) : Prop extends Grows s t where
  shielded : ∀ name depth outer, (s.bindingAt depth name).isSome → depth < outer →
    s.IsLocal outer → t.bindingAt outer name = s.bindingAt outer name

/-- Nothing is removed, and every local frame binds a name as before. -/
structure Protects (name : String) (s t : Store) : Prop extends Shields s t where
  bindingAt_eq : ∀ depth, s.IsLocal depth → t.bindingAt depth name = s.bindingAt depth name

namespace Shields

theorem of_locals (h : Grows s t)
    (hl : ∀ name depth, s.IsLocal depth → t.bindingAt depth name = s.bindingAt depth name) :
    Shields s t :=
  ⟨h, fun name _ outer _ _ hlocal => hl name outer hlocal⟩

theorem of_same (hscopes : t.scopes = s.scopes) (hglobals : t.globals = s.globals)
    (hentities : t.entities = s.entities) : Shields s t :=
  of_locals (.of_same hscopes hglobals hentities) fun name depth _ =>
    bindingAt_of_same hscopes hglobals hentities depth name

theorem refl (s : Store) : Shields s s :=
  of_same rfl rfl rfl

theorem trans (hst : Shields s t) (htu : Shields t u) : Shields s u where
  toGrows := hst.toGrows.trans htu.toGrows
  shielded name depth outer hs hlt hlocal := by
    have ht := hst.bindingAt hs
    have hlocal' := (isLocal_of_kinds hst.kinds).mpr hlocal
    exact (htu.shielded name depth outer ht hlt hlocal').trans
      (hst.shielded name depth outer hs hlt hlocal)

theorem closeScope (h : Shields (s.openScope scope) t) : Shields s t.closeScope where
  toGrows := h.toGrows.closeScope
  shielded name depth outer hs hlt hlocal := by
    rw [bindingAt_closeScope, ← bindingAt_openScope scope outer]
    have hs' : ((s.openScope scope).bindingAt (depth + 1) name).isSome := by
      rwa [bindingAt_openScope]
    exact h.shielded name (depth + 1) (outer + 1) hs' (Nat.succ_lt_succ hlt) hlocal

/-- A scope protects the names that it defines in all local frames around it. -/
theorem protects (h : Shields (s.openScope scope) t) (hs : (s.read name scope).isSome) :
    Protects name s t.closeScope where
  toShields := h.closeScope
  bindingAt_eq depth hlocal := by
    rw [bindingAt_closeScope, ← bindingAt_openScope scope depth]
    have hs' : ((s.openScope scope).bindingAt 0 name).isSome := by rwa [bindingAt_openScope_zero]
    exact h.shielded name 0 (depth + 1) hs' (Nat.succ_pos depth) hlocal

end Shields

namespace Protects

theorem of_same (hscopes : t.scopes = s.scopes) (hglobals : t.globals = s.globals)
    (hentities : t.entities = s.entities) : Protects name s t where
  toShields := .of_same hscopes hglobals hentities
  bindingAt_eq depth _ := bindingAt_of_same hscopes hglobals hentities depth name

theorem refl (name : String) (s : Store) : Protects name s s :=
  of_same rfl rfl rfl

theorem trans (hst : Protects name s t) (htu : Protects name t u) : Protects name s u where
  toShields := hst.toShields.trans htu.toShields
  bindingAt_eq depth hlocal := by
    have hlocal' := (isLocal_of_kinds hst.kinds).mpr hlocal
    exact (htu.bindingAt_eq depth hlocal').trans (hst.bindingAt_eq depth hlocal)

theorem closeScope (h : Protects name (s.openScope scope) t) : Protects name s t.closeScope where
  toShields := h.toShields.closeScope
  bindingAt_eq depth hlocal := by
    rw [bindingAt_closeScope, ← bindingAt_openScope scope depth]
    exact h.bindingAt_eq (depth + 1) hlocal

end Protects

theorem bindingAt_of_agreeOff {places : List Location} (h : AgreeOff places s t)
    (hl : s.locationAt depth name ∉ places) : t.bindingAt depth name = s.bindingAt depth name := by
  rw [bindingAt_eq_valueAt, bindingAt_eq_valueAt, locationAt_of_kinds (frames_eq_iff.mp h.frames)]
  exact h.valueAt _ hl

theorem not_mem_locationsBelow {target : Value} {keys : List String} (h : s.IsLocal depth) :
    s.locationAt depth name ∉ t.locationsBelow target keys := by
  intro hm
  obtain ⟨visit, _, heq⟩ := List.mem_map.mp hm
  exact locationAt_ne_property h visit.entity visit.key heq.symm

theorem shields_of_assign {target value v : Value} {keys : List String}
    (h : s.assign target keys value = .ok (v, t)) : Shields s t := by
  apply Shields.of_locals (.of_assign h)
  intro name depth hlocal
  exact bindingAt_of_agreeOff (agreeOff_of_assign h) (not_mem_locationsBelow hlocal)

/-- A write goes to the nearest frame that defines the name, so it spares the frames further out. -/
theorem shields_of_setKeys {keys : List String} {value : Value}
    (h : s.setKeys name keys value = .ok t) : Shields s t where
  toGrows := .of_setKeys h
  shielded other depth outer hs hlt hlocal := by
    apply bindingAt_of_agreeOff (agreeOff_of_setKeys h)
    intro hm
    rcases List.mem_cons.mp hm with heq | hm
    · -- the frame that is written is the nearest one to define the name, so it lies before `outer`
      obtain ⟨howner, rfl⟩ := eq_of_locationAt_eq hlocal (owner_le_length name s) heq.symm
      have hle := owner_le hs
      omega
    · exact not_mem_locationsBelow hlocal hm

end Store

end TextAdventure
