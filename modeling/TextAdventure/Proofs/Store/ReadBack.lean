import TextAdventure.Proofs.Store.Resolution

/-! # Reading back what was written

A write sets the property of every visit from the last to the first, and then the name. The value itself
goes into the property of the last visit. It is found there again unless an earlier visit, or the scope
of the name, stands for the same property: then that property gets the containers read before the
write, and nothing in the store depends on the value.
-/
namespace TextAdventure

namespace Store

variable {s t s' : Store} {target u value v : Value} {key id name path : String} {keys : List String}

/-- Stores that differ at most in one property. -/
def SameOff (id key : String) (s t : Store) : Prop :=
  ∀ v, s.setProperty id key v = t.setProperty id key v

namespace SameOff

theorem setProperty (h : SameOff id key s t) (id' key' : String) (v : Value) :
    SameOff id key (s.setProperty id' key' v) (t.setProperty id' key' v) := by
  intro w
  by_cases heq : (id', key') = (id, key)
  · cases heq
    rw [h v]
  · rw [setProperty_comm (Ne.symm heq), setProperty_comm (Ne.symm heq), h w]

theorem nextIdentity_eq (h : SameOff id key s t) : s.nextIdentity = t.nextIdentity := by
  simpa using congrArg Store.nextIdentity (h .nil)

theorem scopes_eq (h : SameOff id key s t) : s.scopes = t.scopes := by
  simpa using congrArg Store.scopes (h .nil)

theorem freshIdentity (h : SameOff id key s t) :
    SameOff id key s.freshIdentity.2 t.freshIdentity.2 :=
  fun w => congrArg (fun s : Store => s.freshIdentity.2) (h w)

theorem rebuild {k : String} (h : SameOff id key s t)
    (hr : s.rebuild target k v = some (u, s')) :
    ∃ t', t.rebuild target k v = some (u, t') ∧ SameOff id key s' t' := by
  cases target with
  | entity id' =>
    cases hr
    exact ⟨_, rfl, h.setProperty id' k v⟩
  | map layout entries =>
    cases hr
    refine ⟨_, ?_, h.freshIdentity⟩
    simp [Store.rebuild, Store.freshIdentity, h.nextIdentity_eq]
  | nil =>
    cases hr
    refine ⟨_, ?_, h.freshIdentity⟩
    simp [Store.rebuild, Store.freshIdentity, h.nextIdentity_eq]
  | list items =>
    obtain ⟨i, hi, he⟩ := Option.map_eq_some_iff.mp hr
    cases he
    exact ⟨t, by simp [Store.rebuild, hi], h⟩
  | _ => cases hr

end SameOff

theorem last_visit_cons {visit : Visit} (h : (s.visits target (key :: keys)).getLast? = some visit) :
    (s.visits (s.current target key) keys = [] ∧ target = .entity visit.entity ∧
      visit.key = key ∧ visit.rest = keys) ∨
    ((s.visits (s.current target key) keys).getLast? = some visit ∧
      (s.visits target (key :: keys)).dropLast =
        visitAt target key keys ++ (s.visits (s.current target key) keys).dropLast) := by
  rw [visits] at h ⊢
  by_cases hv : s.visits (s.current target key) keys = []
  · rw [hv, List.append_nil] at h
    rcases entity_or target with ⟨id, rfl⟩ | hne
    · cases h
      exact .inl ⟨hv, rfl, rfl, rfl⟩
    · rw [visitAt_eq_nil_iff.mpr hne] at h
      cases h
  · refine .inr ⟨?_, List.dropLast_append_of_ne_nil hv⟩
    rw [List.getLast?_append, List.getLast?_eq_some_getLast hv, Option.some_or] at h
    rw [List.getLast?_eq_some_getLast hv, h]

/-- After a write the rest of the path leads from the property of the last visit to the value, unless an
earlier visit stands for the same property. -/
theorem property?_of_assign {visit : Visit} (h : s.assign target keys value = .ok (u, t))
    (hb : s.indexesBounded target keys = true)
    (hl : (s.visits target keys).getLast? = some visit)
    (hf : visit.slot ∉ (s.visits target keys).dropLast.map Visit.slot) :
    ∃ w, t.property? visit.entity visit.key = some w ∧
      ∀ t' : Store, t'.reach w visit.rest = some value := by
  induction keys generalizing target u t with
  | nil => cases hl
  | cons key keys ih =>
    obtain ⟨updated, t1, hd, hr⟩ := assign_cons_eq_ok_iff.1 h
    obtain ⟨hkey, hkeys⟩ := (Bool.and_eq_true _ _).mp hb
    rcases last_visit_cons hl with ⟨hv, rfl, rfl, rfl⟩ | ⟨hl, hdrop⟩
    · cases hr
      exact ⟨updated, property?_setProperty_self .., reach_of_assign hd hv hkeys⟩
    · rw [hdrop, List.map_append, List.mem_append, not_or] at hf
      obtain ⟨w, hw, hreach⟩ := ih hd hkeys hl hf.2
      refine ⟨w, ?_, hreach⟩
      rcases entity_or target with ⟨id, rfl⟩ | hne
      · cases hr
        have hslot : visit.slot ≠ (id, key) := by simpa [visitAt, Visit.slot] using hf.1
        rw [property?_setProperty_of_ne hslot, hw]
      · rw [property?_of_rebuild hne hr, hw]

/-- The outcome of a write depends on the value only in the property of the last visit, and not even
there if an earlier visit stands for the same property. -/
theorem sameOff_of_assign {visit : Visit} (h : s.assign target keys value = .ok (u, t))
    (hl : (s.visits target keys).getLast? = some visit) (w : Value) :
    ∃ t', s.assign target keys w = .ok (u, t') ∧ SameOff visit.entity visit.key t t' ∧
      (visit.slot ∈ (s.visits target keys).dropLast.map Visit.slot → t = t') := by
  induction keys generalizing target u t with
  | nil => cases hl
  | cons key keys ih =>
    obtain ⟨updated, t1, hd, hr⟩ := assign_cons_eq_ok_iff.1 h
    rcases last_visit_cons hl with ⟨hv, rfl, rfl, rfl⟩ | ⟨hl, hdrop⟩
    · cases hr
      obtain ⟨u1, h1⟩ := assign_other hd hv w
      refine ⟨_, assign_cons_eq_ok_iff.2 ⟨u1, t1, h1, rfl⟩, ?_, ?_⟩
      · intro x
        rw [setProperty_setProperty, setProperty_setProperty]
      · intro hm
        simp [visits, hv, visitAt] at hm
    · obtain ⟨t2, h2, hsame, heq⟩ := ih hd hl
      obtain ⟨t', hr', hsame'⟩ := hsame.rebuild hr
      refine ⟨t', assign_cons_eq_ok_iff.2 ⟨updated, t2, h2, hr'⟩, hsame', ?_⟩
      intro hm
      rw [hdrop, List.map_append, List.mem_append] at hm
      rcases hm with hm | hm
      · -- the property is written over with what does not depend on the value
        rcases entity_or target with ⟨id, rfl⟩ | hne
        · cases hr
          cases hr'
          have hslot : visit.slot = (id, key) := by simpa [visitAt, Visit.slot] using hm
          cases hslot
          exact hsame updated
        · rw [visitAt_eq_nil_iff.mpr hne] at hm
          cases hm
      · rw [heq hm, hr'] at hr
        cases hr
        rfl

/-- The value that a path with a first name starts from. -/
def start (name : String) (s : Store) : Value :=
  (s.lookupName name).getD .nil

/-- The property that a name stands for, if it belongs to the scope of an entity. -/
def ownSlots (name : String) (s : Store) : List (String × String) :=
  match s.scopes[s.owner name]? with
  | some (.entity id) => [(id, name)]
  | _ => []

/-- The binding of a name in the scope found after passing `depth` scopes. -/
def bindingAt (depth : Nat) (name : String) (s : Store) : Option Value :=
  match s.scopes[depth]? with
  | some scope => s.read name scope
  | none => Dictionary.get? name s.globals

/-- Whether every list met on a path is indexed at most at its length. -/
def pathBounded (path : String × List String) (s : Store) : Bool :=
  s.indexesBounded (s.start path.1) path.2

/-- What a path that was resolved in `s` leads to in `t`: from the last entity it met on, or from the
binding of its name if it met none. -/
def readBack (path : String × List String) (s t : Store) : Option Value :=
  match (s.visits (s.start path.1) path.2).getLast? with
  | some visit => t.reach (.entity visit.entity) visit.keys
  | none => (t.bindingAt (s.owner path.1) path.1).bind fun v => t.reach v path.2

/-- The property that a path leads to last was read before on the way there. -/
def Revisits (path : String × List String) (s : Store) : Prop :=
  ∃ visit ∈ (s.visits (s.start path.1) path.2).getLast?,
    visit.slot ∈ s.ownSlots path.1 ++ (s.visits (s.start path.1) path.2).dropLast.map Visit.slot

instance (path : String × List String) (s : Store) : Decidable (s.Revisits path) := by
  unfold Revisits
  infer_instance

theorem bindingAt_bindAt (depth : Nat) (name : String) (v : Value) (s : Store) :
    (s.bindAt depth name v).bindingAt depth name = some v := by
  unfold bindAt
  cases hd : s.scopes[depth]? with
  | none => simp [bindingAt, hd]
  | some scope =>
    cases scope with
    | entity id => simp [bindingAt, hd, read]
    | block bindings =>
      have hlt : depth < s.scopes.length := (List.getElem?_eq_some_iff.mp hd).1
      simp [bindingAt, hlt, read]

theorem findSome?_or_eq (f : Scope → Option Value) (scopes : List Scope) (default : Option Value) :
    (scopes.findSome? f).or default =
      match scopes[scopes.findIdx fun scope => (f scope).isSome]? with
      | some scope => f scope
      | none => default := by
  induction scopes with
  | nil => rfl
  | cons scope scopes ih =>
    rw [List.findSome?_cons, List.findIdx_cons]
    cases hf : f scope with
    | some v => simp [hf]
    | none => simpa [hf] using ih

theorem lookupName_eq_bindingAt (name : String) (s : Store) :
    s.lookupName name = s.bindingAt (s.owner name) name :=
  findSome?_or_eq (s.read name) s.scopes (Dictionary.get? name s.globals)

theorem isSome_read_owner {scope : Scope} (h : s.scopes[s.owner name]? = some scope) :
    (s.read name scope).isSome = true := by
  obtain ⟨hlt, rfl⟩ := List.getElem?_eq_some_iff.mp h
  exact List.findIdx_getElem (p := fun scope => (s.read name scope).isSome)

theorem owner_eq_of_defines (h : t.scopes.map (fun scope => (t.read name scope).isSome) =
    s.scopes.map fun scope => (s.read name scope).isSome) : t.owner name = s.owner name := by
  have hfind := congrArg (List.findIdx fun b => b) h
  rwa [List.findIdx_map, List.findIdx_map] at hfind

theorem owner_bindAt_owner (name : String) (v : Value) (s : Store) :
    (s.bindAt (s.owner name) name v).owner name = s.owner name := by
  apply owner_eq_of_defines
  unfold bindAt
  cases hscope : s.scopes[s.owner name]? with
  | none => rfl
  | some scope =>
    have hread := isSome_read_owner hscope
    cases scope with
    | block bindings =>
      have hset : ∀ scopes other, read name { s with scopes := scopes } other = s.read name other := by
        intro scopes other
        cases other <;> rfl
      have hbound : (s.scopes.map fun scope => (s.read name scope).isSome)[s.owner name]? =
          some (s.read name (.block (Dictionary.insert name v bindings))).isSome := by
        rw [List.getElem?_map, hscope, Option.map_some, hread]
        simp [read]
      obtain ⟨hlt, hget⟩ := List.getElem?_eq_some_iff.mp hbound
      simp only [hset, List.map_set]
      rw [← hget]
      exact List.set_getElem_self hlt
    | entity id =>
      apply List.map_congr_left
      intro other _
      cases other with
      | block bindings => rfl
      | entity id' =>
        by_cases hid : id' = id
        · subst hid
          rw [hread]
          simp [read]
        · simp only [read]
          rw [property?_setProperty_of_ne]
          simp [hid]

theorem lookupName_bindAt_owner (name : String) (v : Value) (s : Store) :
    (s.bindAt (s.owner name) name v).lookupName name = some v := by
  rw [lookupName_eq_bindingAt, owner_bindAt_owner, bindingAt_bindAt]

theorem setKeys_eq_ok_iff : s.setKeys name keys value = .ok t ↔
    ∃ u t', s.assign (s.start name) keys value = .ok (u, t') ∧
      t'.bindAt (s.owner name) name u = t := by
  cases keys with
  | nil =>
    simp only [setKeys, assign, Except.ok.injEq, Prod.mk.injEq]
    constructor
    · intro h
      exact ⟨value, s, ⟨rfl, rfl⟩, h⟩
    · rintro ⟨u, t', ⟨rfl, rfl⟩, h⟩
      exact h
  | cons key keys => simp [setKeys, start, Error.bind_eq_ok_iff, pure, Except.pure]

theorem property?_bindAt (hs : t.scopes = s.scopes) (h : (id, key) ∉ s.ownSlots name) (v : Value) :
    (t.bindAt (s.owner name) name v).property? id key = t.property? id key := by
  unfold ownSlots at h
  unfold bindAt
  rw [hs]
  cases hd : s.scopes[s.owner name]? with
  | none => rfl
  | some scope =>
    rw [hd] at h
    cases scope with
    | block bindings => rfl
    | entity id' => exact property?_setProperty_of_ne (fun he => h (List.mem_singleton.mpr he)) v t

theorem SameOff.bindAt_eq {t' : Store} (h : SameOff id key t t') (hs : t.scopes = s.scopes)
    (hm : (id, key) ∈ s.ownSlots name) (v : Value) :
    t.bindAt (s.owner name) name v = t'.bindAt (s.owner name) name v := by
  unfold ownSlots at hm
  unfold bindAt
  rw [← h.scopes_eq, hs]
  cases hd : s.scopes[s.owner name]? with
  | none =>
    rw [hd] at hm
    cases hm
  | some scope =>
    rw [hd] at hm
    cases scope with
    | block bindings => cases hm
    | entity id' =>
      cases List.mem_singleton.mp hm
      exact h v

theorem readBack_of_setKeys (hb : s.pathBounded (name, keys) = true)
    (h : s.setKeys name keys value = .ok t) (hr : ¬ s.Revisits (name, keys)) :
    s.readBack (name, keys) t = some value := by
  obtain ⟨u, t1, ha, rfl⟩ := setKeys_eq_ok_iff.1 h
  unfold readBack
  cases hl : (s.visits (s.start name) keys).getLast? with
  | none =>
    have hreach := reach_of_assign ha (List.getLast?_eq_none_iff.mp hl) hb
    simp [bindingAt_bindAt, hreach]
  | some visit =>
    have hslot : visit.slot ∉ s.ownSlots name ++
        (s.visits (s.start name) keys).dropLast.map Visit.slot := by
      intro hm
      exact hr ⟨visit, hl, hm⟩
    rw [List.mem_append, not_or] at hslot
    obtain ⟨w, hw, hreach⟩ := property?_of_assign ha hb hl hslot.2
    have hw' := (property?_bindAt (scopes_of_assign ha) hslot.1 u).trans hw
    simp [Visit.keys, reach_cons, member?, hw', hreach]

/-- If the path comes back to such a property, the store after the write is the same for every value. -/
theorem setKeys_of_revisits (h : s.setKeys name keys value = .ok t) (hr : s.Revisits (name, keys))
    (w : Value) : s.setKeys name keys w = .ok t := by
  obtain ⟨visit, hl, hm⟩ := hr
  obtain ⟨u, t1, ha, rfl⟩ := setKeys_eq_ok_iff.1 h
  obtain ⟨t2, h2, hsame, heq⟩ := sameOff_of_assign ha hl w
  refine setKeys_eq_ok_iff.2 ⟨u, t2, h2, ?_⟩
  rcases List.mem_append.mp hm with hm | hm
  · exact (hsame.bindAt_eq (scopes_of_assign ha) hm u).symm
  · rw [heq hm]

/-- What was written is found again by its path, unless the path comes back to a property that it was
read through. Then the value is lost: the store afterwards is the same for every value. -/
theorem setPath_reads_back (hb : s.pathBounded (pathSegments path) = true)
    (h : s.setPath path value = .ok t) :
    (¬ s.Revisits (pathSegments path) → s.readBack (pathSegments path) t = some value) ∧
    (s.Revisits (pathSegments path) → ∀ w, s.setPath path w = .ok t) := by
  constructor
  · intro hr
    exact readBack_of_setKeys hb h hr
  · intro hr w
    exact setKeys_of_revisits h hr w

/-- An entity whose property `m` is a map that leads back to it. -/
def looping : Store :=
  { new 0 defaultMaxCalls with
    globals := [("a", .entity "A")]
    entities := [("A", [("m", .mapWith none "r" (.entity "A") .empty [])])] }

theorem setPath_looping : (∃ t, looping.setPath "a.m.r.n" (.int 1) = .ok t ∧
      looping.readBack (pathSegments "a.m.r.n") t = some (.int 1)) ∧
    ∃ t, ∀ v, looping.setPath "a.m.r.m" v = .ok t := by
  constructor
  · have hok : ∃ t, looping.setPath "a.m.r.n" (.int 1) = .ok t := ⟨_, rfl⟩
    obtain ⟨t, h⟩ := hok
    exact ⟨t, h, (setPath_reads_back (by decide +kernel) h).1 (by decide +kernel)⟩
  · have hok : ∃ t, looping.setPath "a.m.r.m" .nil = .ok t := ⟨_, rfl⟩
    obtain ⟨t, h⟩ := hok
    exact ⟨t, (setPath_reads_back (by decide +kernel) h).2 (by decide +kernel)⟩

/-- Without the condition a write may be lost: the map that holds the reference is put back over it. -/
theorem not_setPath_reads_back : ¬ ∀ (path : String) (value : Value) (s t : Store),
    s.pathBounded (pathSegments path) = true → s.setPath path value = .ok t →
      s.readBack (pathSegments path) t = some value := by
  intro h
  have hread := h "a.m.r.m" (.int 1) looping _ (by decide +kernel) rfl
  cases hread

end Store

end TextAdventure
