import TextAdventure.Code.Eval

/-! # Realms of values

A realm says which values may occur at each stage of a run, and which marks no value has taken by then. It
is closed under all that evaluation does with values: taking them apart, putting them together, and, at a
later stage, holding them and writing into maps. If all values in a store are of a realm, then so are all
values that are read from it, computed from these and written to it.
-/
namespace TextAdventure

/-- Whether a value has no parts and is no function. -/
def Value.isPlain : Value → Bool
  | .list _ | .map .. | .function _ => false
  | _ => true

structure Realm where
  Stage : Type
  /-- The second stage is the first one or comes after it. -/
  Le : Stage → Stage → Prop
  Has : Stage → Value → Prop
  /-- No value has this mark or one after it. -/
  Free : Stage → Nat → Prop
  refl {w : Stage} : Le w w
  trans {w w₁ w₂ : Stage} : Le w w₁ → Le w₁ w₂ → Le w w₂
  mono {w w₁ : Stage} {v : Value} : Le w w₁ → Has w v → Has w₁ v
  plain {w : Stage} {v : Value} : v.isPlain = true → Has w v
  list_iff {w : Stage} {items : List Value} : Has w (.list items) ↔ ∀ v ∈ items, Has w v
  entry {w : Stage} {layout : Layout} {entries : Bindings} :
    Has w (.map layout entries) → ∀ entry ∈ entries, Has w entry.2
  ofEntries {w : Stage} {entries : Bindings} :
    (∀ entry ∈ entries, Has w entry.2) → Has w (.ofEntries entries)
  hold {w : Stage} {n : Nat} {v : Value} : Free w n → Has w v →
    ∃ w₁, Le w w₁ ∧ Free w₁ (v.hold n).2 ∧ Has w₁ (v.hold n).1
  mapWith {w : Stage} {n : Nat} {key : String} {v : Value} {layout : Layout} {entries : Bindings} :
    Free w n → Has w (.map layout entries) → Has w v →
      ∃ w₁, Le w w₁ ∧ Free w₁ (n + 1) ∧ Has w₁ (.mapWith (some n) key v layout entries)

variable {R : Realm} {w w₁ : R.Stage} {v : Value} {items : List Value} {entries : Bindings}
  {key : String}

namespace Realm

/-- All values of some entries are of the realm. -/
def HasAll (R : Realm) (w : R.Stage) (entries : Bindings) : Prop :=
  ∀ entry ∈ entries, R.Has w entry.2

theorem HasAll.mono (h : R.HasAll w entries) (hle : R.Le w w₁) : R.HasAll w₁ entries :=
  fun entry hentry => R.mono hle (h entry hentry)

theorem HasAll.get? (h : R.HasAll w entries) (hv : Dictionary.get? key entries = some v) : R.Has w v :=
  h _ (Dictionary.mem_of_get? hv)

theorem HasAll.insert (h : R.HasAll w entries) (key : String) (hv : R.Has w v) :
    R.HasAll w (Dictionary.insert key v entries) := by
  intro entry hentry
  rcases Dictionary.mem_insert hentry with rfl | hentry
  · exact hv
  · exact h entry hentry

theorem HasAll.ofList (h : R.HasAll w entries) : R.HasAll w (Dictionary.ofList entries) :=
  fun entry hentry => h entry (Dictionary.mem_ofList hentry)

theorem has_emptyMap : R.Has w (.map .empty []) := by
  have h : R.Has w (.ofEntries []) := R.ofEntries nofun
  exact h

theorem has_getD {o : Option Value} (h : ∀ v ∈ o, R.Has w v) : R.Has w (o.getD .nil) := by
  cases o with
  | none => exact R.plain rfl
  | some v => exact h v rfl

theorem has_headD (h : ∀ v ∈ items, R.Has w v) : R.Has w (items.headD .nil) := by
  cases items with
  | nil => exact R.plain rfl
  | cons v items => exact h v List.mem_cons_self

theorem has_ofLiteral (l : Literal) : R.Has w (.ofLiteral l) := by
  cases l <;> exact R.plain rfl

theorem has_ofNat (n : Nat) : R.Has w (.ofNat n) :=
  R.plain rfl

theorem holdAll {n : Nat} (hfree : R.Free w n) (h : ∀ v ∈ items, R.Has w v) :
    ∃ w₁, R.Le w w₁ ∧ R.Free w₁ (Value.holdAll items n).2 ∧
      ∀ v ∈ (Value.holdAll items n).1, R.Has w₁ v := by
  obtain ⟨w₁, hle, hfree, hlist⟩ := R.hold hfree (R.list_iff.mpr h)
  rw [Value.hold] at hfree hlist
  exact ⟨w₁, hle, hfree, R.list_iff.mp hlist⟩

theorem has_mixedArithmetic {op : BinaryOp} {left right : Value}
    (h : Value.mixedArithmetic op left right = .ok v) : R.Has w v := by
  obtain ⟨x, _, h⟩ := Error.bind_eq_ok_iff.mp h
  obtain ⟨y, _, h⟩ := Error.bind_eq_ok_iff.mp h
  cases h
  exact R.plain rfl

theorem has_arithmetic (op : BinaryOp) {left right : Value}
    (h : Value.arithmetic op left right = .ok v) : R.Has w v := by
  unfold Value.arithmetic at h
  split at h
  · split at h
    · cases h
      exact R.plain rfl
    · exact has_mixedArithmetic h
  · exact has_mixedArithmetic h

theorem has_add {left right : Value} (hl : R.Has w left) (hr : R.Has w right)
    (h : left.add right = .ok v) : R.Has w v := by
  unfold Value.add at h
  split at h
  · cases h
    exact R.plain rfl
  · cases h
    exact R.plain rfl
  · cases h
    exact R.list_iff.mpr (List.forall_mem_append.mpr ⟨R.list_iff.mp hl, R.list_iff.mp hr⟩)
  · exact has_arithmetic .add h

theorem has_binary (op : BinaryOp) {left right : Value} (hl : R.Has w left) (hr : R.Has w right)
    (h : op.apply left right = .ok v) : R.Has w v := by
  cases op with
  | add => exact has_add hl hr h
  | sub => exact has_arithmetic .sub h
  | mul => exact has_arithmetic .mul h
  | div => exact has_arithmetic .div h
  | rem => exact has_arithmetic .rem h
  | eq | ne | strictEq | strictNe =>
    cases h
    exact R.plain rfl
  | lt | le | gt | ge =>
    obtain ⟨order, _, h⟩ := Error.bind_eq_ok_iff.mp h
    cases h
    exact R.plain rfl

theorem has_unary {op : UnaryOp} {operand : Value} (h : op.apply operand = .ok v) : R.Has w v := by
  unfold UnaryOp.apply at h
  split at h <;> cases h <;> exact R.plain rfl

theorem has_combine {op : AssignOp} {present new : Value} (hp : R.Has w present) (hn : R.Has w new)
    (h : Code.combine op present new = .ok v) : R.Has w v := by
  have hcounted : R.Has w (if present.isNil then .int 0 else present) := by
    split
    · exact R.plain rfl
    · exact hp
  cases op with
  | set =>
    cases h
    exact hn
  | add => exact has_binary .add hcounted hn h
  | sub => exact has_binary .sub hcounted hn h

theorem has_function {callee : String} {f : Function} (hv : R.Has w v)
    (h : Code.function callee v = .ok f) : R.Has w (.function f) := by
  unfold Code.function at h
  split at h
  · cases h
    exact hv
  · cases h

theorem hasAll_bindings {args : List Value} (f : ScriptFunction) (hargs : ∀ v ∈ args, R.Has w v) :
    R.HasAll w (f.bindings args) := by
  have hparams : R.HasAll w (f.params.zipIdx.map fun param => (param.1, args[param.2]?.getD .nil)) := by
    intro entry hentry
    obtain ⟨param, _, rfl⟩ := List.mem_map.mp hentry
    exact has_getD fun v hv => hargs v (List.mem_of_getElem? hv)
  exact hparams.ofList.insert "arguments" (R.list_iff.mpr hargs)

theorem has_extreme {beats : Float → Float → Bool} {best : Option (Float × Value)} {vs : List Value}
    (hbest : ∀ b ∈ best, R.Has w b.2) (hvs : ∀ u ∈ vs, R.Has w u)
    (h : Builtin.extreme beats best vs = .ok v) : R.Has w v := by
  induction vs generalizing best with
  | nil =>
    cases h
    exact has_getD fun u hu => by
      obtain ⟨b, hb, rfl⟩ := Option.map_eq_some_iff.mp hu
      exact hbest b hb
  | cons u vs ih =>
    obtain ⟨hu, hvs⟩ := List.forall_mem_cons.mp hvs
    rw [Builtin.extreme] at h
    obtain ⟨x, _, h⟩ := Error.bind_eq_ok_iff.mp h
    split at h
    next y best =>
      refine ih (fun b hb => ?_) hvs h
      split at hb
      · cases hb
        exact hu
      · exact hbest b hb
    next =>
      refine ih (fun b hb => ?_) hvs h
      cases hb
      exact hu

theorem has_spread {args : List Value} (h : ∀ u ∈ args, R.Has w u) :
    ∀ u ∈ Builtin.spread args, R.Has w u := by
  unfold Builtin.spread
  split
  · exact R.list_iff.mp (h _ List.mem_cons_self)
  · exact h

theorem has_runFloor {args : List Value} (h : Builtin.runFloor args = .ok v) : R.Has w v := by
  obtain ⟨_, _, h⟩ := Error.bind_eq_ok_iff.mp h
  split at h <;> cases h <;> exact R.plain rfl

theorem has_keyList (bindings : Bindings) : R.Has w (Builtin.keyList bindings) := by
  refine R.list_iff.mpr fun v hv => ?_
  obtain ⟨key, _, rfl⟩ := List.mem_map.mp hv
  exact R.plain rfl

end Realm

namespace Store

/-- All values in the store are of the realm. -/
structure Within (R : Realm) (w : R.Stage) (s : Store) : Prop where
  globals : R.HasAll w s.globals
  scopes : ∀ bindings, .block bindings ∈ s.scopes → R.HasAll w bindings
  entities : ∀ entry ∈ s.entities, R.HasAll w entry.2

/-- The store can be that of a run which has come to the stage. -/
structure At (R : Realm) (w : R.Stage) (s : Store) : Prop where
  within : s.Within R w
  free : R.Free w s.nextIdentity

variable {s t : Store} {id name : String} {keys : List String}

namespace Within

theorem mono (h : s.Within R w) (hle : R.Le w w₁) : s.Within R w₁ :=
  ⟨h.globals.mono hle, fun bindings hb => (h.scopes bindings hb).mono hle,
    fun entry hentry => (h.entities entry hentry).mono hle⟩

theorem of_same (h : s.Within R w) (hglobals : t.globals = s.globals) (hscopes : t.scopes = s.scopes)
    (hentities : t.entities = s.entities) : t.Within R w :=
  ⟨hglobals ▸ h.globals, hscopes ▸ h.scopes, hentities ▸ h.entities⟩

theorem properties (h : s.Within R w) (id : String) : R.HasAll w ((s.properties? id).getD []) := by
  cases hp : s.properties? id with
  | none => exact nofun
  | some properties => exact h.entities _ (Dictionary.mem_of_get? hp)

theorem property? (h : s.Within R w) (hv : s.property? id key = some v) : R.Has w v := by
  obtain ⟨properties, hp, hv⟩ := Option.bind_eq_some_iff.mp hv
  exact Realm.HasAll.get? (h.entities _ (Dictionary.mem_of_get? hp)) hv

theorem lookupName (h : s.Within R w) (hv : s.lookupName name = some v) : R.Has w v := by
  rcases Option.or_eq_some_iff.mp hv with hv | ⟨-, hv⟩
  · obtain ⟨scope, hscope, hv⟩ := List.exists_of_findSome?_eq_some hv
    cases scope with
    | block bindings => exact (h.scopes bindings hscope).get? hv
    | entity id => exact h.property? hv
  · exact h.globals.get? hv

theorem member? {container : Value} (h : s.Within R w) (hc : R.Has w container)
    (hv : s.member? container key = some v) : R.Has w v := by
  unfold Store.member? at hv
  split at hv
  · exact R.entry hc _ (Dictionary.mem_of_get? hv)
  · exact h.property? hv
  · split at hv
    · cases hv
      exact Realm.has_ofNat _
    · obtain ⟨i, _, hv⟩ := Option.bind_eq_some_iff.mp hv
      exact R.list_iff.mp hc v (List.mem_of_getElem? hv)
  · split at hv
    · cases hv
      exact Realm.has_ofNat _
    · cases hv
  · cases hv

theorem follow {start : Value} (h : s.Within R w) (hstart : R.Has w start) (keys : List String) :
    R.Has w (s.follow start keys) := by
  induction keys generalizing start with
  | nil => exact hstart
  | cons key keys ih => exact ih (Realm.has_getD fun v hv => h.member? hstart hv)

theorem getPath {path : String} (h : s.Within R w) (hv : s.getPath path = .ok v) : R.Has w v := by
  rcases hpath : pathSegments path with ⟨name, keys⟩
  simp only [Store.getPath, hpath] at hv
  split at hv
  next start hstart =>
    cases hv
    exact h.follow (h.lookupName hstart) keys
  next => cases hv

theorem insertEntity (h : s.Within R w) (id : String) {properties : Bindings}
    (hp : R.HasAll w properties) : (s.insertEntity id properties).Within R w := by
  refine ⟨h.globals, h.scopes, fun entry hentry => ?_⟩
  rcases Dictionary.mem_insert hentry with rfl | hentry
  · exact hp
  · exact h.entities entry hentry

theorem setProperty (h : s.Within R w) (id key : String) (hv : R.Has w v) :
    (s.setProperty id key v).Within R w :=
  h.insertEntity id ((h.properties id).insert key hv)

theorem bindAt (h : s.Within R w) (depth : Nat) (name : String) (hv : R.Has w v) :
    (s.bindAt depth name v).Within R w := by
  unfold Store.bindAt
  split
  next bindings hscope =>
    refine ⟨h.globals, fun other hother => ?_, h.entities⟩
    rcases List.mem_or_eq_of_mem_set hother with hother | hother
    · exact h.scopes other hother
    · cases hother
      exact (h.scopes bindings (List.mem_of_getElem? hscope)).insert name hv
  · exact h.setProperty _ name hv
  · exact ⟨h.globals.insert name hv, h.scopes, h.entities⟩

theorem openScope (h : s.Within R w) {scope : Scope}
    (hscope : ∀ bindings, scope = .block bindings → R.HasAll w bindings) :
    (s.openScope scope).Within R w := by
  refine ⟨h.globals, fun bindings hbindings => ?_, h.entities⟩
  rcases List.mem_cons.mp hbindings with heq | hbindings
  · exact hscope bindings heq.symm
  · exact h.scopes bindings hbindings

theorem closeScope (h : s.Within R w) : s.closeScope.Within R w :=
  ⟨h.globals, fun bindings hb => h.scopes bindings (List.mem_of_mem_tail hb), h.entities⟩

end Within

theorem nextIdentity_bindAt (depth : Nat) (name : String) (v : Value) (s : Store) :
    (s.bindAt depth name v).nextIdentity = s.nextIdentity := by
  unfold bindAt
  split <;> rfl

namespace At

theorem of_same (h : s.At R w) (hglobals : t.globals = s.globals) (hscopes : t.scopes = s.scopes)
    (hentities : t.entities = s.entities) (hnext : t.nextIdentity = s.nextIdentity) : t.At R w :=
  ⟨h.within.of_same hglobals hscopes hentities, hnext ▸ h.free⟩

theorem setProperty (h : s.At R w) (id key : String) (hv : R.Has w v) : (s.setProperty id key v).At R w :=
  ⟨h.within.setProperty id key hv, h.free⟩

theorem bindAt (h : s.At R w) (depth : Nat) (name : String) (hv : R.Has w v) :
    (s.bindAt depth name v).At R w := by
  refine ⟨h.within.bindAt depth name hv, ?_⟩
  rw [nextIdentity_bindAt]
  exact h.free

theorem openScope (h : s.At R w) {scope : Scope}
    (hscope : ∀ bindings, scope = .block bindings → R.HasAll w bindings) : (s.openScope scope).At R w :=
  ⟨h.within.openScope hscope, h.free⟩

theorem closeScope (h : s.At R w) : s.closeScope.At R w :=
  ⟨h.within.closeScope, h.free⟩

theorem hold (h : s.At R w) (hv : R.Has w v) :
    ∃ w₁, R.Le w w₁ ∧ (s.hold v).2.At R w₁ ∧ R.Has w₁ (s.hold v).1 := by
  obtain ⟨w₁, hle, hfree, hheld⟩ := R.hold h.free hv
  exact ⟨w₁, hle, ⟨(h.within.mono hle).of_same rfl rfl rfl, hfree⟩, hheld⟩

theorem holdAll (h : s.At R w) (hitems : ∀ v ∈ items, R.Has w v) :
    ∃ w₁, R.Le w w₁ ∧ (s.holdAll items).2.At R w₁ ∧ ∀ v ∈ (s.holdAll items).1, R.Has w₁ v := by
  obtain ⟨w₁, hle, hfree, hheld⟩ := Realm.holdAll h.free hitems
  exact ⟨w₁, hle, ⟨(h.within.mono hle).of_same rfl rfl rfl, hfree⟩, hheld⟩

theorem mapWith {layout : Layout} (h : s.At R w) (hm : R.Has w (.map layout entries)) (hv : R.Has w v)
    (key : String) : ∃ w₁, R.Le w w₁ ∧ s.freshIdentity.2.At R w₁ ∧
      R.Has w₁ (.mapWith s.freshIdentity.1 key v layout entries) := by
  obtain ⟨w₁, hle, hfree, hwritten⟩ := R.mapWith h.free hm hv
  exact ⟨w₁, hle, ⟨(h.within.mono hle).of_same rfl rfl rfl, hfree⟩, hwritten⟩

theorem assign {target value updated : Value} (h : s.At R w) (htarget : R.Has w target)
    (hv : R.Has w value) (heq : s.assign target keys value = .ok (updated, t)) :
    ∃ w₁, R.Le w w₁ ∧ t.At R w₁ ∧ R.Has w₁ updated := by
  induction keys generalizing s target updated t with
  | nil =>
    cases heq
    exact ⟨w, R.refl, h, hv⟩
  | cons key keys ih =>
    unfold Store.assign at heq
    split at heq
    next id =>
      obtain ⟨⟨below, u⟩, hbelow, heq⟩ := Error.bind_eq_ok_iff.mp heq
      obtain ⟨w₁, hle, hu, hb⟩ := ih h (Realm.has_getD fun v hv => h.within.property? hv) hbelow
      cases heq
      exact ⟨w₁, hle, hu.setProperty id key hb, R.mono hle htarget⟩
    next layout entries =>
      obtain ⟨⟨below, u⟩, hbelow, heq⟩ := Error.bind_eq_ok_iff.mp heq
      have hentries : R.HasAll w entries := R.entry htarget
      obtain ⟨w₁, hle, hu, hb⟩ := ih h (Realm.has_getD fun v hv => hentries.get? hv) hbelow
      cases heq
      obtain ⟨w₂, hle₂, hfresh, hwritten⟩ := hu.mapWith (R.mono hle htarget) hb key
      exact ⟨w₂, R.trans hle hle₂, hfresh, hwritten⟩
    next =>
      obtain ⟨⟨below, u⟩, hbelow, heq⟩ := Error.bind_eq_ok_iff.mp heq
      obtain ⟨w₁, hle, hu, hb⟩ := ih h (R.plain rfl) hbelow
      cases heq
      obtain ⟨w₂, hle₂, hfresh, hwritten⟩ := hu.mapWith Realm.has_emptyMap hb key
      exact ⟨w₂, R.trans hle hle₂, hfresh, hwritten⟩
    next items =>
      split at heq
      next i _ =>
        obtain ⟨⟨below, u⟩, hbelow, heq⟩ := Error.bind_eq_ok_iff.mp heq
        have hitems := R.list_iff.mp htarget
        obtain ⟨w₁, hle, hu, hb⟩ :=
          ih h (Realm.has_getD fun v hv => hitems v (List.mem_of_getElem? hv)) hbelow
        cases heq
        have hitems : ∀ v ∈ items, R.Has w₁ v := fun v hv => R.mono hle (hitems v hv)
        refine ⟨w₁, hle, hu, R.list_iff.mpr ?_⟩
        split
        · intro v hv
          rcases List.mem_or_eq_of_mem_set hv with hv | rfl
          · exact hitems v hv
          · exact hb
        · exact List.forall_mem_append.mpr ⟨hitems, List.forall_mem_singleton.mpr hb⟩
      next => cases heq
    next => cases heq

theorem setKeys {value : Value} (h : s.At R w) (hv : R.Has w value)
    (heq : s.setKeys name keys value = .ok t) : ∃ w₁, R.Le w w₁ ∧ t.At R w₁ := by
  unfold Store.setKeys at heq
  split at heq
  · cases heq
    exact ⟨w, R.refl, h.bindAt _ name hv⟩
  · obtain ⟨⟨updated, u⟩, hassign, heq⟩ := Error.bind_eq_ok_iff.mp heq
    obtain ⟨w₁, hle, hu, hupdated⟩ :=
      h.assign (Realm.has_getD fun v hv => h.within.lookupName hv) hv hassign
    cases heq
    exact ⟨w₁, hle, hu.bindAt _ name hupdated⟩

end At

end Store

end TextAdventure
