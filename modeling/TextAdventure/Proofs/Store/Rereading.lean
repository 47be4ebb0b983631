import TextAdventure.Proofs.Store.ReadBack

/-! # Reading a path again after a write

A written value is found again by following its path from its name on, through the same entities, provided
that the property which receives it is none that is read before. The containers that a write puts back
on the way may be others than before, since a property can be read several times, but they still lead to
every entity that they led to.
-/
namespace TextAdventure

namespace Store

variable {s t t' : Store} {target u v w x value : Value} {key name : String} {keys : List String}
  {visit : Visit}

/-- What keys lead to inside a value: an entity is the end. -/
def inner (v : Value) (keys : List String) : Option Value :=
  (new 0 0).reach v keys

theorem member?_eq (hne : ∀ id, v ≠ .entity id) (key : String) (s t : Store) :
    s.member? v key = t.member? v key := by
  cases v with
  | entity id => exact absurd rfl (hne id)
  | _ => rfl

theorem inner_cons (hne : ∀ id, v ≠ .entity id) (key : String) (keys : List String) (s : Store) :
    inner v (key :: keys) = (s.member? v key).bind fun w => inner w keys := by
  rw [inner, reach_cons, member?_eq hne key _ s]
  rfl

theorem inner_nil_value (keys : List String) (id : String) : inner .nil keys ≠ some (.entity id) := by
  cases keys <;> simp [inner, reach, member?]

/-- The second value leads to every entity that the first one leads to. -/
def Keeps (v w : Value) : Prop :=
  ∀ keys id, inner v keys = some (.entity id) → inner w keys = some (.entity id)

theorem Keeps.refl (v : Value) : Keeps v v :=
  fun _ _ h => h

theorem Keeps.eq_entity {id : String} (h : Keeps (.entity id) w) : w = .entity id :=
  Option.some.inj (h [] id rfl)

theorem exists_inner_of_visits (h : s.visits v keys ≠ []) :
    ∃ ks id, inner v ks = some (.entity id) := by
  induction keys generalizing v with
  | nil => exact absurd rfl h
  | cons key keys ih =>
    rcases entity_or v with ⟨id, rfl⟩ | hne
    · exact ⟨[], id, rfl⟩
    · rw [visits, visitAt_eq_nil_iff.mpr hne, List.nil_append] at h
      obtain ⟨ks, id, hks⟩ := ih h
      refine ⟨key :: ks, id, ?_⟩
      rw [inner_cons hne key ks s]
      cases hm : s.member? v key with
      | none =>
        rw [current, hm] at hks
        exact absurd hks (inner_nil_value ks id)
      | some x => rwa [current, hm] at hks

theorem current_eq_of_visits (h : s.visits (s.current v key) keys ≠ []) :
    s.member? v key = some (s.current v key) := by
  cases hm : s.member? v key with
  | some x => rw [current, hm, Option.getD_some]
  | none =>
    obtain ⟨ks, id, hks⟩ := exists_inner_of_visits h
    rw [current, hm] at hks
    exact absurd hks (inner_nil_value ks id)

theorem Keeps.current (hk : Keeps v w) (hne : ∀ id, v ≠ .entity id)
    (h : s.visits (s.current v key) keys ≠ []) :
    (∀ id, w ≠ .entity id) ∧ ∃ y, t.member? w key = some y ∧ Keeps (s.current v key) y := by
  have hm := current_eq_of_visits h
  have hinner : ∀ ks id, inner (s.current v key) ks = some (.entity id) →
      inner w (key :: ks) = some (.entity id) := by
    intro ks id hks
    apply hk
    rw [inner_cons hne key ks s, hm]
    exact hks
  have hnew : ∀ id, w ≠ .entity id := by
    rintro id rfl
    obtain ⟨ks, id', hks⟩ := exists_inner_of_visits h
    cases hinner ks id' hks
  refine ⟨hnew, ?_⟩
  simp only [inner_cons hnew key _ t] at hinner
  obtain ⟨ks, id, hks⟩ := exists_inner_of_visits h
  obtain ⟨y, hy, _⟩ := Option.bind_eq_some_iff.mp (hinner ks id hks)
  refine ⟨y, hy, fun ks id hks => ?_⟩
  simpa [hy] using hinner ks id hks

theorem member?_of_rebuild_of_some {k : String} {y : Value} (hne : ∀ id, target ≠ .entity id)
    (hm : s.member? target key = some x) (h : t.rebuild target key w = some (u, t'))
    (hy : s.member? target k = some y) :
    (∀ id, u ≠ .entity id) ∧ (y = x ∧ s.member? u k = some w ∨ s.member? u k = some y) := by
  cases target with
  | entity id => exact absurd rfl (hne id)
  | map layout entries =>
    cases h
    refine ⟨fun _ => Value.noConfusion, ?_⟩
    by_cases hk : k = key
    · subst hk
      exact .inl ⟨Option.some.inj (hy.symm.trans hm), by simp [member?, Value.mapWith]⟩
    · exact .inr (by simpa [member?, Value.mapWith, Dictionary.get?_insert_of_ne hk] using hy)
  | list items =>
    obtain ⟨i, hi, he⟩ := Option.map_eq_some_iff.mp h
    cases he
    refine ⟨fun _ => Value.noConfusion, ?_⟩
    have hkey : key ≠ "length" := by
      intro heq
      rw [heq, listIndex?_length] at hi
      cases hi
    have hx : items[i]? = some x := by simpa [member?, hkey, hi] using hm
    have hlt : i < items.length := (List.getElem?_eq_some_iff.mp hx).1
    rw [if_pos hlt]
    by_cases hk : k = "length"
    · subst hk
      exact .inr (by simpa [member?] using hy)
    · obtain ⟨j, hj, hjy⟩ := Option.bind_eq_some_iff.mp ((if_neg hk).symm.trans hy)
      by_cases hij : i = j
      · subst hij
        exact .inl ⟨Option.some.inj (hjy.symm.trans hx), by simp [member?, hk, hj, hlt]⟩
      · exact .inr (by simpa [member?, hk, hj, hij] using hjy)
  | nil => cases hm
  | _ => cases h

theorem Keeps.rebuild (hne : ∀ id, target ≠ .entity id) (hm : s.member? target key = some x)
    (hk : Keeps x w) (h : t.rebuild target key w = some (u, t')) : Keeps target u := by
  intro ks id hks
  cases ks with
  | nil => exact absurd (Option.some.inj hks) (hne id)
  | cons k ks =>
    rw [inner_cons hne k ks s] at hks
    obtain ⟨y, hy, hys⟩ := Option.bind_eq_some_iff.mp hks
    obtain ⟨hu, ⟨rfl, hw⟩ | hsame⟩ := member?_of_rebuild_of_some hne hm h hy
    · rw [inner_cons hu k ks s, hw]
      exact hk ks id hys
    · rw [inner_cons hu k ks s, hsame]
      exact hys

/-- Two stores have the same properties but for one, and each of them keeps what it led to. -/
def KeepsOff (slot : String × String) (s t : Store) : Prop :=
  ∀ id k, (id, k) ≠ slot → Option.Rel Keeps (s.property? id k) (t.property? id k)

theorem Keeps.rel_refl (o : Option Value) : Option.Rel Keeps o o := by
  cases o with
  | none => exact .none
  | some v => exact .some (Keeps.refl v)

theorem Keeps.isSome_eq {o o' : Option Value} (h : Option.Rel Keeps o o') : o'.isSome = o.isSome := by
  cases h <;> rfl

theorem KeepsOff.setProperty {slot : String × String} {id : String} (h : KeepsOff slot s t)
    (hx : s.property? id key = some x) (hk : Keeps x w) : KeepsOff slot s (t.setProperty id key w) := by
  intro id' k hne
  by_cases heq : (id', k) = (id, key)
  · cases heq
    rw [hx, property?_setProperty_self]
    exact .some hk
  · rw [property?_setProperty_of_ne heq]
    exact h id' k hne

theorem property?_of_assign_of_visits_nil (h : s.assign target keys value = .ok (u, t))
    (hv : s.visits target keys = []) (id k : String) : t.property? id k = s.property? id k := by
  induction keys generalizing target u t with
  | nil =>
    cases h
    rfl
  | cons key keys ih =>
    obtain ⟨updated, t1, hd, hr⟩ := assign_cons_eq_ok_iff.1 h
    obtain ⟨hat, hrest⟩ := List.append_eq_nil_iff.mp hv
    rw [property?_of_rebuild (visitAt_eq_nil_iff.mp hat) hr, ih hd hrest]

/-- A write keeps what its target and all properties lead to, but for the property of the last visit. -/
theorem keeps_of_assign (h : s.assign target keys value = .ok (u, t))
    (hl : (s.visits target keys).getLast? = some visit) :
    Keeps target u ∧ KeepsOff visit.slot s t := by
  induction keys generalizing target u t with
  | nil => cases hl
  | cons key keys ih =>
    obtain ⟨updated, t1, hd, hr⟩ := assign_cons_eq_ok_iff.1 h
    rcases last_visit_cons hl with ⟨hv, rfl, rfl, rfl⟩ | ⟨hl, -⟩
    · cases hr
      refine ⟨Keeps.refl _, fun id k hne => ?_⟩
      rw [property?_setProperty_of_ne hne, property?_of_assign_of_visits_nil hd hv]
      exact Keeps.rel_refl _
    · obtain ⟨hkeeps, hoff⟩ := ih hd hl
      have hahead : s.visits (s.current target key) keys ≠ [] := by
        intro hnil
        rw [hnil] at hl
        cases hl
      have hm := current_eq_of_visits hahead
      rcases entity_or target with ⟨id, rfl⟩ | hne
      · cases hr
        exact ⟨Keeps.refl _, hoff.setProperty hm hkeeps⟩
      · refine ⟨Keeps.rebuild hne hm hkeeps hr, fun id k hslot => ?_⟩
        rw [property?_of_rebuild hne hr]
        exact hoff id k hslot

/-- A value that leads to another one in every store leads there past no entity. -/
theorem visits_eq_nil_of_reach (h : ∀ t : Store, t.reach v keys = some value) : s.visits v keys = [] := by
  induction keys generalizing v with
  | nil => rfl
  | cons key keys ih =>
    have hne : ∀ id, v ≠ .entity id := by
      rintro id rfl
      cases h (new 0 0)
    rw [visits, visitAt_eq_nil_iff.mpr hne, List.nil_append]
    apply ih
    intro t
    obtain ⟨y, hy, hys⟩ := Option.bind_eq_some_iff.mp ((reach_cons v key keys).symm.trans (h t))
    rwa [current, member?_eq hne key s t, hy]

/-- What a path leads to after a write, if all that is read before the last visit is kept. -/
theorem reread (hoff : KeepsOff visit.slot s t) (hw : t.property? visit.entity visit.key = some w)
    (hreach : ∀ t' : Store, t'.reach w visit.rest = some value) (hk : Keeps v u)
    (hl : (s.visits v keys).getLast? = some visit)
    (hf : visit.slot ∉ (s.visits v keys).dropLast.map Visit.slot) :
    t.visits u keys = s.visits v keys ∧ t.reach u keys = some value := by
  induction keys generalizing v u with
  | nil => cases hl
  | cons key keys ih =>
    rcases last_visit_cons hl with ⟨hv, rfl, rfl, rfl⟩ | ⟨hl, hdrop⟩
    · cases hk.eq_entity
      have hafter : t.visits w visit.rest = [] := visits_eq_nil_of_reach hreach
      have hcurrent : t.current (.entity visit.entity) visit.key = w := by simp [current, member?, hw]
      refine ⟨?_, ?_⟩
      · rw [visits, visits, hcurrent, hafter, hv]
      · rw [reach_cons, member?, hw]
        exact hreach t
    · rw [hdrop, List.map_append, List.mem_append, not_or] at hf
      have hahead : s.visits (s.current v key) keys ≠ [] := by
        intro hnil
        rw [hnil] at hl
        cases hl
      obtain ⟨y, hy, hkeeps, hat⟩ : ∃ y, t.member? u key = some y ∧ Keeps (s.current v key) y ∧
          visitAt u key keys = visitAt v key keys := by
        rcases entity_or v with ⟨id, rfl⟩ | hne
        · cases hk.eq_entity
          have hslot : (id, key) ≠ visit.slot := by
            simpa [visitAt, Visit.slot, eq_comm] using hf.1
          have hrel := hoff id key hslot
          rw [show s.property? id key = some _ from current_eq_of_visits hahead] at hrel
          cases hy : t.property? id key with
          | none =>
            rw [hy] at hrel
            cases hrel
          | some y =>
            rw [hy] at hrel
            cases hrel with
            | some hkeeps => exact ⟨y, hy, hkeeps, rfl⟩
        · obtain ⟨hne', y, hy, hkeeps⟩ := hk.current (t := t) hne hahead
          exact ⟨y, hy, hkeeps, by rw [visitAt_eq_nil_iff.mpr hne, visitAt_eq_nil_iff.mpr hne']⟩
      obtain ⟨hvisits, hreach⟩ := ih hkeeps hl hf.2
      have hcurrent : t.current u key = y := by rw [current, hy, Option.getD_some]
      refine ⟨?_, ?_⟩
      · rw [visits, visits, hcurrent, hvisits, hat]
      · rw [reach_cons, hy, Option.bind_some, hreach]

theorem indexesBounded_of_reach (h : s.reach v keys = some value) : s.indexesBounded v keys = true := by
  induction keys generalizing v with
  | nil => rfl
  | cons key keys ih =>
    obtain ⟨y, hy, hys⟩ := Option.bind_eq_some_iff.mp ((reach_cons v key keys).symm.trans h)
    have hcurrent : s.current v key = y := by rw [current, hy, Option.getD_some]
    rw [indexesBounded, hcurrent, ih hys, Bool.and_true]
    cases v with
    | list items =>
      cases hi : listIndex? key with
      | none => simp [inBounds, hi]
      | some i =>
        have hkey : key ≠ "length" := by
          intro heq
          rw [heq, listIndex?_length] at hi
          cases hi
        have hget : items[i]? = some y := by simpa [member?, hkey, hi] using hy
        simp [inBounds, hi, Nat.le_of_lt (List.getElem?_eq_some_iff.mp hget).1]
    | _ => rfl

theorem follow_of_reach (h : s.reach v keys = some value) : s.follow v keys = value := by
  induction keys generalizing v with
  | nil => exact Option.some.inj h
  | cons key keys ih =>
    obtain ⟨y, hy, hys⟩ := Option.bind_eq_some_iff.mp ((reach_cons v key keys).symm.trans h)
    have hstep : s.follow v (key :: keys) = s.follow ((s.member? v key).getD .nil) keys := rfl
    rw [hstep, hy]
    exact ih hys

/-- The property that a name stands for in a scope, if the scope is that of an entity. -/
def scopeSlots (name : String) : Scope → List (String × String)
  | .block _ => []
  | .entity id => [(id, name)]

/-- The properties through which a name is looked up, from the innermost scope to the one that owns it. -/
def lookupSlots (name : String) (s : Store) : List (String × String) :=
  (s.scopes.take (s.owner name + 1)).flatMap (scopeSlots name)

theorem findIdx_congr {α : Type} {p q : α → Bool} {l : List α}
    (h : ∀ a ∈ l.take (l.findIdx p + 1), q a = p a) : l.findIdx q = l.findIdx p := by
  induction l with
  | nil => rfl
  | cons a l ih =>
    have ha : q a = p a := h a (by simp)
    rw [List.findIdx_cons, List.findIdx_cons, ha]
    cases hp : p a with
    | true => rfl
    | false =>
      rw [List.findIdx_cons, hp] at h
      simp only [cond_false]
      rw [ih fun b hb => h b (List.mem_cons_of_mem a hb)]

theorem owner_eq_of_lookupSlots (hs : t.scopes = s.scopes)
    (h : ∀ id, (id, name) ∈ s.lookupSlots name →
      (t.property? id name).isSome = (s.property? id name).isSome) :
    t.owner name = s.owner name := by
  rw [owner, hs]
  apply findIdx_congr
  intro scope hmem
  cases scope with
  | block bindings => rfl
  | entity id => exact h id (List.mem_flatMap.mpr ⟨_, hmem, List.mem_singleton.mpr rfl⟩)

theorem ownSlots_subset_lookupSlots {slot : String × String} (h : slot ∈ s.ownSlots name) :
    slot ∈ s.lookupSlots name := by
  unfold ownSlots at h
  split at h
  · rename_i id hscope
    refine List.mem_flatMap.mpr ⟨.entity id, ?_, h⟩
    apply List.mem_of_getElem? (i := s.owner name)
    rw [List.getElem?_take_of_lt (Nat.lt_succ_self _), hscope]
  · cases h

theorem map_scopeSlots_bindAt (depth : Nat) (v : Value) (s : Store) :
    (s.bindAt depth name v).scopes.map (scopeSlots name) = s.scopes.map (scopeSlots name) := by
  unfold bindAt
  split
  · rename_i bindings hscope
    obtain ⟨hlt, hget⟩ := List.getElem?_eq_some_iff.mp hscope
    have hlt' : depth < (s.scopes.map (scopeSlots name)).length := by simpa using hlt
    have hslots : (s.scopes.map (scopeSlots name))[depth] = [] := by
      rw [List.getElem_map, hget, scopeSlots]
    simp only [List.map_set, scopeSlots, ← hslots, List.set_getElem_self]
  · rfl
  · rfl

theorem lookupSlots_bindAt_owner (name : String) (v : Value) (s : Store) :
    (s.bindAt (s.owner name) name v).lookupSlots name = s.lookupSlots name := by
  simp only [lookupSlots, List.flatMap_def, List.map_take, owner_bindAt_owner, map_scopeSlots_bindAt]

theorem KeepsOff.bindAt {slot : String × String} (h : KeepsOff slot s t) (hs : t.scopes = s.scopes)
    (hk : Keeps (s.start name) u) : KeepsOff slot s (t.bindAt (s.owner name) name u) := by
  unfold Store.bindAt
  rw [hs]
  split
  · exact h
  · rename_i id hscope
    obtain ⟨x, hx⟩ := Option.isSome_iff_exists.mp (isSome_read_owner hscope)
    have hstart : s.start name = x := by
      rw [start, lookupName_eq_bindingAt, bindingAt, hscope]
      simp [hx]
    rw [hstart] at hk
    exact h.setProperty hx hk
  · exact h

/-- The property that a path leads to last is read before on the way there, or the name is looked up
through it. -/
def Clashes (path : String × List String) (s : Store) : Prop :=
  ∃ visit ∈ (s.visits (s.start path.1) path.2).getLast?,
    visit.slot ∈ s.lookupSlots path.1 ++ (s.visits (s.start path.1) path.2).dropLast.map Visit.slot

instance (path : String × List String) (s : Store) : Decidable (s.Clashes path) :=
  match hlast : (s.visits (s.start path.1) path.2).getLast? with
  | none => isFalse fun ⟨_, h, _⟩ => by rw [hlast] at h; cases h
  | some visit =>
    let earlier := s.lookupSlots path.1 ++ (s.visits (s.start path.1) path.2).dropLast.map Visit.slot
    decidable_of_iff (earlier.contains visit.slot = true) <| by
      simp [Clashes, earlier, hlast]

/-- A path leads to a value, and another write to it would not change how. -/
structure Settled (name : String) (keys : List String) (value : Value) (s : Store) : Prop where
  isDefined : s.isDefined name = true
  reach : s.reach (s.start name) keys = some value
  apart : ¬s.Clashes (name, keys)

theorem start_eq_of_lookupName (h : s.lookupName name = some v) : s.start name = v := by
  rw [start, h, Option.getD_some]

theorem rereads_of_setKeys (hb : s.pathBounded (name, keys) = true) (hc : ¬s.Clashes (name, keys))
    (ha : s.assign (s.start name) keys value = .ok (u, t)) :
    t.owner name = s.owner name ∧ (t.bindAt (s.owner name) name u).visits u keys = s.visits (s.start name) keys ∧
      (t.bindAt (s.owner name) name u).reach u keys = some value := by
  have hs := scopes_of_assign ha
  cases hl : (s.visits (s.start name) keys).getLast? with
  | none =>
    have hv := List.getLast?_eq_none_iff.mp hl
    have hreach := reach_of_assign ha hv hb
    refine ⟨owner_eq_of_lookupSlots hs fun id _ => ?_, ?_, hreach _⟩
    · rw [property?_of_assign_of_visits_nil ha hv]
    · rw [visits_eq_nil_of_reach hreach, hv]
  | some visit =>
    have hslot : visit.slot ∉ s.lookupSlots name ++
        (s.visits (s.start name) keys).dropLast.map Visit.slot := by
      intro hm
      exact hc ⟨visit, hl, hm⟩
    rw [List.mem_append, not_or] at hslot
    obtain ⟨hkeeps, hoff⟩ := keeps_of_assign ha hl
    obtain ⟨w, hw, hreach⟩ := property?_of_assign ha hb hl hslot.2
    have hown : visit.slot ∉ s.ownSlots name := fun hm => hslot.1 (ownSlots_subset_lookupSlots hm)
    have hw' := (property?_bindAt hs hown u).trans hw
    refine ⟨owner_eq_of_lookupSlots hs fun id hm => ?_, ?_⟩
    · have hne : (id, name) ≠ visit.slot := by
        rintro heq
        exact hslot.1 (heq ▸ hm)
      exact Keeps.isSome_eq (hoff id name hne)
    · exact reread (hoff.bindAt hs hkeeps) hw' hreach hkeeps hl hslot.2

theorem settled_of_setKeys (hb : s.pathBounded (name, keys) = true) (hc : ¬s.Clashes (name, keys))
    (h : s.setKeys name keys value = .ok t) : Settled name keys value t := by
  obtain ⟨u, t1, ha, rfl⟩ := setKeys_eq_ok_iff.1 h
  obtain ⟨howner, hvisits, hreach⟩ := rereads_of_setKeys hb hc ha
  have hslots : t1.lookupSlots name = s.lookupSlots name := by
    rw [lookupSlots, lookupSlots, howner, scopes_of_assign ha]
  rw [← howner] at hvisits hreach ⊢
  have hlookup := lookupName_bindAt_owner name u t1
  have hstart := start_eq_of_lookupName hlookup
  refine ⟨by rw [isDefined, hlookup]; rfl, by rw [hstart, hreach], ?_⟩
  rintro ⟨visit, hl, hm⟩
  simp only [hstart, hvisits, lookupSlots_bindAt_owner, hslots] at hl hm
  exact hc ⟨visit, hl, hm⟩

theorem Settled.pathBounded (h : Settled name keys value s) : s.pathBounded (name, keys) = true :=
  indexesBounded_of_reach h.reach

end Store

end TextAdventure
