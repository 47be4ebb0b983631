import TextAdventure.Proofs.Eval.Moments

/-! # Performing an action

The body of an action runs in scopes of its own on top of those of the caller: names for all entities,
what the pattern captured, the owner and, if the owner is an entity, its properties. All of them are closed
again when the body ends. What it assigned to a name of one of the first three is gone with its scope.
-/
namespace TextAdventure

namespace Store

variable {s t : Store} {n : Nat}

/-- Opens scopes, given innermost first. -/
def openScopes (scopes : List Scope) (s : Store) : Store :=
  { s with scopes := scopes ++ s.scopes }

/-- What is left of a store when all scopes but the `n` outermost ones are closed. -/
def outer (n : Nat) (s : Store) : Store :=
  { s with scopes := s.scopes.drop (s.scopes.length - n) }

theorem kinds_openScopes (scopes : List Scope) (s : Store) :
    (s.openScopes scopes).kinds = scopes.map Scope.kind ++ s.kinds :=
  List.map_append

theorem length_scopes_of_kinds (h : t.kinds = s.kinds) : t.scopes.length = s.scopes.length := by
  simpa [kinds] using congrArg List.length h

theorem bindingAt_openScopes {scopes : List Scope} {i : Nat} {scope : Scope}
    (h : scopes[i]? = some scope) (name : String) (s : Store) :
    (s.openScopes scopes).bindingAt i name = s.read name scope := by
  have hlt : i < scopes.length := (List.getElem?_eq_some_iff.mp h).1
  rw [bindingAt, openScopes, List.getElem?_append_left hlt, h]
  cases scope <;> rfl

theorem bindingAt_openScopes_add (scopes : List Scope) (depth : Nat) (name : String) (s : Store) :
    (s.openScopes scopes).bindingAt (scopes.length + depth) name = s.bindingAt depth name := by
  rw [bindingAt, openScopes, List.getElem?_append_right (Nat.le_add_right _ _),
    Nat.add_sub_cancel_left]
  unfold bindingAt
  cases s.scopes[depth]? with
  | none => rfl
  | some scope => cases scope <;> rfl

theorem bindingAt_outer {k : Nat} (h : t.scopes.length = k + n) (depth : Nat) (name : String) :
    (t.outer n).bindingAt depth name = t.bindingAt (k + depth) name := by
  have hk : t.scopes.length - n = k := by omega
  unfold bindingAt outer
  rw [hk, List.getElem?_drop]
  cases t.scopes[k + depth]? with
  | none => rfl
  | some scope => cases scope <;> rfl

theorem read_openScopes (scopes : List Scope) (name : String) (s : Store) :
    (s.openScopes scopes).read name = s.read name := by
  funext scope
  cases scope <;> rfl

theorem lookupName_openScopes_cons (scope : Scope) (scopes : List Scope) (name : String) (s : Store) :
    (s.openScopes (scope :: scopes)).lookupName name =
      (s.read name scope).or ((s.openScopes scopes).lookupName name) := by
  rw [lookupName, lookupName, read_openScopes, read_openScopes, ← Option.or_assoc]
  simp only [openScopes, List.cons_append, List.findSome?_cons]
  cases s.read name scope <;> rfl

theorem outer_bindAt {depth : Nat} {bindings : Bindings}
    (h : s.scopes[depth]? = some (.block bindings)) (hlt : depth < s.scopes.length - n) (name : String)
    (v : Value) : (s.bindAt depth name v).outer n = s.outer n := by
  simp only [bindAt, h, outer, List.length_set, List.drop_set_of_lt hlt]

end Store

namespace Eval

/-- Runs a computation in scopes, given innermost first. -/
def inAll {α : Type} (scopes : List Scope) (m : Eval α) : Eval α :=
  scopes.foldl (fun m scope => inScope scope m) m

theorem runOn_inAll {α : Type} (scopes : List Scope) (m : Eval α) (s : Store) :
    runOn (inAll scopes m) s = ((runOn m (s.openScopes scopes)).1,
      { (runOn m (s.openScopes scopes)).2 with
        scopes := (runOn m (s.openScopes scopes)).2.scopes.drop scopes.length }) := by
  induction scopes generalizing m with
  | nil => rfl
  | cons scope scopes ih =>
    have hopen : (s.openScopes scopes).openScope scope = s.openScopes (scope :: scopes) := rfl
    rw [inAll, List.foldl_cons, ← inAll, ih, runOn_inScope, hopen]
    simp only [Store.closeScope, List.length_cons, List.drop_tail]

end Eval

namespace Action

open Eval (runOn)
open Store (Nested Shields)

variable {owner : String} {captures : Bindings} {s t : Store} {name : String}

/-- The scopes that an action opens for its body, innermost first. -/
def scopes (owner : String) (captures : Bindings) (s : Store) : List Scope :=
  (if s.hasEntity owner then [.entity owner] else []) ++
    [.block [("this", .entity owner)], .block captures, .block (entityNames s)]

/-- The store that the body of an action starts in. -/
def start (owner : String) (captures : Bindings) (s : Store) : Store :=
  s.openScopes (scopes owner captures s)

/-- A name that an action defines in a scope with bindings of its own. -/
def Defines (captures : Bindings) (s : Store) (name : String) : Prop :=
  name = "this" ∨ (Dictionary.get? name captures).isSome ∨ s.hasEntity name = true

theorem kinds_start (owner : String) (captures : Bindings) (s : Store) :
    (start owner captures s).kinds =
      (if s.hasEntity owner then [.entity owner] else []) ++ .own :: .own :: .own :: s.kinds := by
  rw [start, Store.kinds_openScopes, scopes]
  split <;> rfl

theorem get?_entityNames (name : String) (s : Store) :
    Dictionary.get? name (entityNames s) = if s.hasEntity name then some (.entity name) else none := by
  have hids : s.hasEntity name = true ↔ name ∈ s.entityIds := Dictionary.isSome_get?_iff
  cases hget : Dictionary.get? name (entityNames s) with
  | none =>
    have hnot : s.hasEntity name ≠ true := by
      intro hentity
      have hsome : (Dictionary.get? name (entityNames s)).isSome := by
        apply Dictionary.isSome_get?_ofList
        simpa [Dictionary.keys, Function.comp_def] using hids.mp hentity
      rw [hget] at hsome
      cases hsome
    rw [if_neg hnot]
  | some v =>
    have hm := Dictionary.mem_ofList (Dictionary.mem_of_get? hget)
    obtain ⟨id, hid, heq⟩ := List.mem_map.mp hm
    cases heq
    rw [if_pos (hids.mpr hid)]

theorem property?_of_not_hasEntity (h : s.hasEntity owner ≠ true) (name : String) :
    s.property? owner name = none := by
  have hnone : s.properties? owner = none := Option.not_isSome_iff_eq_none.mp h
  rw [Store.property?, hnone]
  rfl

/-- When the body starts, a name means the first that there is of a property of the owner, the owner, a
capture, an entity and what it means to the caller. -/
theorem lookupName_start (owner : String) (captures : Bindings) (s : Store) (name : String) :
    (start owner captures s).lookupName name =
      (s.property? owner name).or
        ((if name = "this" then some (.entity owner) else none).or
          ((Dictionary.get? name captures).or
            ((if s.hasEntity name then some (.entity name) else none).or (s.lookupName name)))) := by
  have hthis : s.read name (.block [("this", .entity owner)]) =
      if name = "this" then some (.entity owner) else none := by
    simp [Store.read, Dictionary.get?, eq_comm]
  have hblocks : (s.openScopes [.block [("this", .entity owner)], .block captures,
      .block (entityNames s)]).lookupName name =
        (if name = "this" then some (.entity owner) else none).or ((Dictionary.get? name captures).or
          ((if s.hasEntity name then some (.entity name) else none).or (s.lookupName name))) := by
    rw [Store.lookupName_openScopes_cons, Store.lookupName_openScopes_cons,
      Store.lookupName_openScopes_cons, hthis, ← get?_entityNames]
    rfl
  rw [start, scopes, ← hblocks]
  by_cases h : s.hasEntity owner = true
  · rw [if_pos h, List.singleton_append, Store.lookupName_openScopes_cons]
    rfl
  · rw [if_neg h, property?_of_not_hasEntity h]
    rfl

theorem runOn_inScopes {α : Type} (owner : String) (captures : Bindings) (m : Eval α) (s : Store) :
    runOn (inScopes owner captures m) s = runOn (Eval.inAll (scopes owner captures s) m) s := by
  rw [inScopes, Eval.runOn_bind, Eval.runOn_get, scopes]
  by_cases h : s.hasEntity owner = true
  · simp only [if_pos h]
    rfl
  · simp only [if_neg h]
    rfl

/-- The body of an action that the command matches leaves its scopes on top of those of the caller, and they
are closed. -/
theorem runOn_perform {a : Action} {c : Command} {hit : Hit} (h : a.matcher c owner = some hit)
    (s : Store) :
    runOn (a.perform owner c) s =
      ((runOn a.body.resolve (start owner hit.captures s)).1.mapError
          (·.inAction a.phase.name a.path),
        (runOn a.body.resolve (start owner hit.captures s)).2.outer s.scopes.length) := by
  have hbody := Eval.shields_invariant.resolveRule a.body (start owner hit.captures s)
  have hlength := Store.length_scopes_of_kinds hbody.kinds
  have hopened : (start owner hit.captures s).scopes.length - s.scopes.length =
      (scopes owner hit.captures s).length := by
    simp [start, Store.openScopes]
  rw [perform, h, Store.outer, hlength, hopened]
  simp only [Eval.runOn_mapError, runOn_inScopes, Eval.runOn_inAll]
  rfl

theorem exists_bindingAt_start (h : Defines captures s name) :
    ∃ i < (scopes owner captures s).length,
      ((start owner captures s).bindingAt i name).isSome := by
  have hscope : ∃ scope ∈ scopes owner captures s, (s.read name scope).isSome := by
    rcases h with rfl | h | h
    · exact ⟨.block [("this", .entity owner)], by simp [scopes], rfl⟩
    · exact ⟨.block captures, by simp [scopes], h⟩
    · refine ⟨.block (entityNames s), by simp [scopes], ?_⟩
      rw [Store.read, get?_entityNames, if_pos h]
      rfl
  obtain ⟨scope, hm, hread⟩ := hscope
  obtain ⟨i, hi⟩ := List.mem_iff_getElem?.mp hm
  refine ⟨i, (List.getElem?_eq_some_iff.mp hi).1, ?_⟩
  rwa [start, Store.bindingAt_openScopes hi]

theorem bindingAt_of_shields (hst : Shields (start owner captures s) t)
    (h : Defines captures s name) {depth : Nat} (hlocal : s.IsLocal depth) :
    (t.outer s.scopes.length).bindingAt depth name = s.bindingAt depth name := by
  obtain ⟨i, hi, hsome⟩ := exists_bindingAt_start h
  have hlength : t.scopes.length = (scopes owner captures s).length + s.scopes.length := by
    rw [Store.length_scopes_of_kinds hst.kinds, start, Store.openScopes, List.length_append]
  have hlocal' : (start owner captures s).IsLocal ((scopes owner captures s).length + depth) := by
    rw [Store.IsLocal, start, Store.kinds_openScopes, List.append_assoc,
      List.getElem?_append_right (by simp)]
    simpa [Store.IsLocal] using hlocal
  rw [Store.bindingAt_outer hlength,
    hst.shielded name i _ hsome (Nat.lt_of_lt_of_le hi (Nat.le_add_right _ _)) hlocal', start,
    Store.bindingAt_openScopes_add]

theorem store_of_assignName (op : AssignOp) (name : String) {value : Code} {u : Store}
    (hu : u = (runOn (value.eval Function.call) s).2) :
    (runOn ((Code.assignName op name [] value).eval Function.call) s).2 = u ∨
      ∃ m v, (runOn ((Code.assignName op name [] value).eval Function.call) s).2 =
        { u with nextIdentity := m }.bindAt (u.owner name) name v := by
  subst hu
  simp only [Code.eval, Code.evalAll, Eval.runOn_bind, Eval.runOn_pure, List.map_nil]
  cases runOn (value.eval Function.call) s with
  | mk r u =>
    cases r with
    | error e => exact .inl rfl
    | ok new =>
      simp only [Code.storeName, Eval.runOn_change]
      cases Code.combine op (u.follow ((u.lookupName name).getD .nil) []) new.get with
      | error e => exact .inl rfl
      | ok stored => exact .inr ⟨_, _, rfl⟩

/-- While the body runs, a name that the action defines belongs to a scope of the action or of a call, and
that scope has bindings of its own unless the name is a property of the owner. -/
theorem scopes_owner (hst : Nested (start owner captures s) t) (h : Defines captures s name)
    (hbag : s.hasEntity owner = true → t.property? owner name = none) :
    t.owner name < t.scopes.length - s.scopes.length ∧
      ∃ bindings, t.scopes[t.owner name]? = some (.block bindings) := by
  obtain ⟨depth, hkinds, hbound⟩ := hst
  obtain ⟨i, hi, hsome⟩ := exists_bindingAt_start h
  have howner : t.owner name ≤ depth + i := Store.owner_le (hbound i name hsome)
  rw [start, Store.kinds_openScopes] at hkinds
  have hlength : t.scopes.length = depth + ((scopes owner captures s).length + s.scopes.length) := by
    simpa [Store.kinds] using congrArg List.length hkinds
  refine ⟨by omega, ?_⟩
  have hlt : t.owner name < t.scopes.length := by omega
  have hget := List.getElem?_eq_getElem hlt
  cases hscope : t.scopes[t.owner name] with
  | block bindings => exact ⟨bindings, by rw [hget, hscope]⟩
  | entity id =>
    rw [hscope] at hget
    have hkind : (List.replicate depth FrameKind.own ++
        (scopes owner captures s).map Scope.kind)[t.owner name]? = some (.entity id) := by
      have hat : t.kinds[t.owner name]? = some (.entity id) := by
        rw [Store.kinds, List.getElem?_map, hget]
        rfl
      rwa [hkinds, ← List.append_assoc, List.getElem?_append_left (by simp; omega)] at hat
    -- the only scope of an entity there is that of the owner, so the name is a property of the owner
    have hid : s.hasEntity owner = true ∧ id = owner := by
      have hm := List.mem_of_getElem? hkind
      by_cases hentity : s.hasEntity owner = true
      · exact ⟨hentity, by simpa [scopes, Scope.kind, hentity] using hm⟩
      · simp [scopes, Scope.kind, hentity] at hm
    obtain ⟨hentity, rfl⟩ := hid
    have hread := Store.isSome_read_owner hget
    rw [Store.read, hbag hentity] at hread
    cases hread

theorem outer_assignName {u : Store} {op : AssignOp} {value : Code}
    (hst : Nested (start owner captures s) t) (h : Defines captures s name)
    (hu : u = (runOn (value.eval Function.call) t).2)
    (hbag : s.hasEntity owner = true → u.property? owner name = none) :
    ∃ m, (runOn ((Code.assignName op name [] value).eval Function.call) t).2.outer s.scopes.length =
      { u.outer s.scopes.length with nextIdentity := m } := by
  have hvalue := Eval.Closed.evalCode Eval.shields_invariant.runClosed value t
  rw [← hu] at hvalue
  obtain ⟨hlt, bindings, hscope⟩ := scopes_owner (hst.grows hvalue.toGrows) h hbag
  obtain heq | ⟨m, v, heq⟩ := store_of_assignName op name hu
  · exact ⟨u.nextIdentity, by rw [heq]; rfl⟩
  · refine ⟨m, ?_⟩
    rw [heq]
    exact Store.outer_bindAt (s := { u with nextIdentity := m }) hscope hlt name v

/-- A run of an action that the command matches. -/
structure RunsInScopes (a : Action) (owner : String) (captures : Bindings) (s : Store)
    (run : Except Error Resolved × Store) : Prop where
  /-- Three scopes with bindings of their own and, for an owner that is an entity, its properties are
  opened on top of the scopes of the caller. -/
  kinds_start : (start owner captures s).kinds =
    (if s.hasEntity owner then [.entity owner] else []) ++ .own :: .own :: .own :: s.kinds
  /-- When the body starts, a name means its first definition among them. -/
  lookupName_start : ∀ name, (start owner captures s).lookupName name =
    (s.property? owner name).or
      ((if name = "this" then some (.entity owner) else none).or
        ((Dictionary.get? name captures).or
          ((if s.hasEntity name then some (.entity name) else none).or (s.lookupName name))))
  result : run.1 =
    (runOn a.body.resolve (start owner captures s)).1.mapError (·.inAction a.phase.name a.path)
  /-- However the body ends, all that is undone of it is that the opened scopes are closed. -/
  store : run.2 = (runOn a.body.resolve (start owner captures s)).2.outer s.scopes.length
  frames : run.2.frames = s.frames
  /-- Where the body, or a function that it calls, assigns to a name of the action that is no property of
  the owner, the assignment makes no difference outside the opened scopes, but for the marks that are left
  for new maps. -/
  assignName : ∀ (op : AssignOp) (name : String) (value : Code) (t u : Store),
    Defines captures s name →
    Eval.Meets (fun call => a.body.resolveWith call) (start owner captures s)
      (fun call => (Code.assignName op name [] value).eval call) t →
    u = (runOn (value.eval Function.call) t).2 →
    (s.hasEntity owner = true → u.property? owner name = none) →
    ∃ m, (runOn ((Code.assignName op name [] value).eval Function.call) t).2.outer
      s.scopes.length = { u.outer s.scopes.length with nextIdentity := m }
  /-- Whatever the body does, the caller and the globals bind a name of the action as before. -/
  bindingAt : ∀ name depth, Defines captures s name → s.IsLocal depth →
    run.2.bindingAt depth name = s.bindingAt depth name

/-- An action does nothing if the command does not match. Otherwise its body runs in scopes that are opened
for it, in the order in which names are looked up in them, and that are closed again. -/
theorem perform_runs_in_scopes (a : Action) (owner : String) (c : Command) (s : Store) :
    (a.matcher c owner = none → runOn (a.perform owner c) s = (.ok .unresolved, s)) ∧
    ∀ hit, a.matcher c owner = some hit →
      RunsInScopes a owner hit.captures s (runOn (a.perform owner c) s) := by
  constructor
  · intro h
    rw [perform, h]
    rfl
  · intro hit h
    have hbody := Eval.shields_invariant.resolveRule a.body (start owner hit.captures s)
    have hframes := (Store.balanced_invariant.perform owner c a s).frames
    rw [runOn_perform h] at hframes ⊢
    exact {
      kinds_start := kinds_start owner hit.captures s
      lookupName_start := lookupName_start owner hit.captures s
      result := rfl
      store := rfl
      frames := hframes
      assignName := fun op name value t u hname hmeets hu hbag =>
        outer_assignName hmeets.nested hname hu hbag
      bindingAt := fun name depth hname hlocal => bindingAt_of_shields hbody hname hlocal }

/-- A lamp with some oil, a key and a global `noun`. -/
def lampRoom : Store :=
  { Store.new 0 Store.defaultMaxCalls with
    globals := [("noun", .int 1)], entities := [("key", []), ("lamp", [("oil", .int 3)])] }

def setNoun : Code :=
  .assignName .set "noun" [] (.constant (.int 2))

/-- Captures an object as `noun` and calls a function that writes `noun`. -/
def setsNoun : Action :=
  ⟨.main, "set", .captureObject .direct "noun", .call ⟨0, .script ⟨"set", [], "noun = 2", setNoun⟩⟩⟩

def capturedKey : Bindings :=
  [("noun", .entity "key")]

/-- Where the function writes `noun`. -/
def insideSet : Store :=
  (start "lamp" capturedKey lampRoom).enterCall.openScope (.block [("arguments", .list [])])

theorem perform_runs_in_scopes_lamp :
    (setsNoun.matcher .empty "lamp" = none ∧
      runOn (setsNoun.perform "lamp" .empty) lampRoom = (.ok .unresolved, lampRoom)) ∧
    setsNoun.matcher ⟨[.directObject "key"]⟩ "lamp" = some ⟨5, capturedKey⟩ ∧
    (runOn (setsNoun.perform "lamp" ⟨[.directObject "key"]⟩) lampRoom).1 = .ok (.value (.int 2)) ∧
    (start "lamp" capturedKey lampRoom).lookupName "oil" = some (.int 3) ∧
    (Defines capturedKey lampRoom "noun" ∧
      (∃ m, (runOn (setNoun.eval Function.call) insideSet).2.outer 0 =
        { insideSet.outer 0 with nextIdentity := m }) ∧
      (runOn (setsNoun.perform "lamp" ⟨[.directObject "key"]⟩) lampRoom).2.bindingAt 0 "noun" =
        some (.int 1)) := by
  have hrejected := (perform_runs_in_scopes setsNoun "lamp" .empty lampRoom).1 rfl
  have hruns := (perform_runs_in_scopes setsNoun "lamp" ⟨[.directObject "key"]⟩ lampRoom).2 _ rfl
  have hdefines : Defines capturedKey lampRoom "noun" := .inr (.inl rfl)
  have hmeets : Eval.Meets (fun call => setsNoun.body.resolveWith call)
      (start "lamp" capturedKey lampRoom) (fun call => setNoun.eval call) insideSet := by
    refine .map Resolved.value (.entered (by decide) (.next (.step (.holdAll [])) (.inScope _ ?_)))
    exact .map Resolved.get (.mapError _ (.here _ _))
  have hassign := hruns.assignName .set "noun" (.constant (.int 2)) _ _ hdefines hmeets rfl
    fun _ => rfl
  have hglobal := hruns.bindingAt "noun" 0 hdefines (by decide)
  exact ⟨⟨rfl, hrejected⟩, rfl, hruns.result.trans rfl, (hruns.lookupName_start "oil").trans rfl,
    hdefines, hassign, hglobal.trans rfl⟩

end Action

end TextAdventure
