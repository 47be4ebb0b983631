import TextAdventure.Proofs.Eval.Counting
import TextAdventure.Proofs.Expr.DottedPaths

/-! # Paths read and written as code

A dotted path is a text that the store follows by itself, and the source text of an expression that is read
and assigned to. Both ways lead to the same values and write the same stores.
-/
namespace TextAdventure

open Eval

namespace Value

/-- The maps in the value have their marks: it stays as it is when something else comes to hold it. -/
def IsHeld (v : Value) : Prop :=
  ∀ next, v.hold next = (v, next)

theorem holdAll_of_isHeld {vs : List Value} (h : ∀ v ∈ vs, v.IsHeld) (next : Nat) :
    holdAll vs next = (vs, next) := by
  induction vs with
  | nil => rw [holdAll]
  | cons v vs ih =>
    obtain ⟨hv, hvs⟩ := List.forall_mem_cons.mp h
    rw [holdAll, hv next]
    dsimp only
    rw [ih hvs]

mutual

theorem isHeld_hold : ∀ (v : Value) (next : Nat), (v.hold next).1.IsHeld
  | .nil, next | .bool _, next | .int _, next | .float _, next | .string _, next | .entity _, next
  | .function _, next => by
    intro free
    rw [hold]
    · rw [hold]
      all_goals nofun
    all_goals nofun
  | .list items, next => by
    intro free
    rw [hold]
    dsimp only
    rw [hold, holdAll_of_isHeld (isHeld_holdAll items next)]
  | .map layout entries, next => by
    intro free
    rw [hold]
    split
    next hmark => rw [hold, if_pos hmark]
    next => rw [hold, if_pos (by simp)]

theorem isHeld_holdAll : ∀ (vs : List Value) (next : Nat), ∀ v ∈ (holdAll vs next).1, v.IsHeld
  | [], next => by
    rw [holdAll]
    exact nofun
  | v :: vs, next => by
    rw [holdAll]
    exact List.forall_mem_cons.mpr ⟨isHeld_hold v next, isHeld_holdAll vs _⟩

end

end Value

variable {c : Code} {e : Expr} {name y : String} {keys : List String} {s t : Store} {v : Value}
  {script : Script}

theorem Store.hold_of_isHeld (h : v.IsHeld) (s : Store) : s.hold v = (v, s) := by
  rw [hold, h s.nextIdentity]

theorem Store.lookupName_define (name : String) (v : Value) (s : Store) :
    (s.define name v).lookupName name = some v := by
  unfold define bindAt
  cases hscopes : s.scopes with
  | nil => simp [lookupName]
  | cons scope scopes => cases scope <;> simp [lookupName, hscopes, read]

theorem Expr.PlaceAt.eval_of_lookupName_eq_none (h : e.PlaceAt name keys) (hc : Code.ofExpr e = .ok c)
    (hs : s.lookupName name = none) (call : Caller) :
    runOn (c.eval call) s = (.error (.ofFault (.undefinedSymbol name)), s) := by
  induction h generalizing c with
  | identifier n span =>
    cases hc
    rw [Code.eval, runOn_bind, runOn_get]
    simp [hs]
  | member _ key span ih =>
    obtain ⟨d, hd, hmember⟩ := Error.bind_eq_ok_iff.mp hc
    cases hmember
    rw [Code.eval, runOn_bind, ih hd hs]
  | element _ he _ span ih =>
    obtain ⟨d, hd, hmember⟩ := Error.bind_eq_ok_iff.mp hc
    obtain ⟨k, hk, helement⟩ := Error.bind_eq_ok_iff.mp hmember
    cases helement
    rw [Code.eval, runOn_bind, ih hd hs]

theorem Code.AddressOf.eval_assign (h : c.AddressOf name keys) (hv : s.lookupName y = some v)
    (hheld : v.IsHeld) (call : Caller) : runOn ((c.place.assign .set (.name y)).eval call) s =
      match s.setKeys name keys v with
      | .ok t => (.ok (.value v), t)
      | .error error => (.error error, s) := by
  obtain ⟨codes, hplace, hcodes⟩ := h.place
  obtain ⟨vs, hvs, rfl⟩ := Code.evalAll_constant hcodes call s
  have hvalue : runOn ((Code.name y).eval call) s = (.ok (.value v), s) := by
    rw [Code.eval, runOn_bind, runOn_get]
    simp [hv]
  have hstore : runOn (Code.storeName .set name (vs.map Value.key) v) s =
      match s.setKeys name (vs.map Value.key) v with
      | .ok t => (.ok (.value v), t)
      | .error error => (.error error, s) := by
    rw [Code.storeName, runOn_change]
    simp only [Code.combine, Except.bind, bind, Store.hold_of_isHeld hheld]
    cases s.setKeys name (vs.map Value.key) v <;> rfl
  rw [hplace, Code.Place.assign, Code.eval, runOn_bind, hvalue]
  change runOn (Code.evalAll call codes >>= _) s = _
  rw [runOn_bind, hvs]
  exact hstore

namespace Expr

theorem placeAt_of_tree (h : e.tree = pathTree name keys) : e.PlaceAt name keys := by
  induction keys using List.reverseRecOn generalizing e with
  | nil =>
    cases e with
    | identifier n span =>
      cases h
      exact .identifier _ _
    | _ => cases h
  | append_singleton keys key ih =>
    rw [pathTree, List.foldl_concat] at h
    cases e with
    | member container k span =>
      obtain ⟨hcontainer, rfl⟩ := Tree.member.inj h
      exact .member (ih hcontainer) _ span
    | _ => cases h

theorem eq_assign_of_tree {op : AssignOp} {target value : Tree} (h : e.tree = .assign op target value) :
    ∃ l r span, e = .assign op l r span ∧ l.tree = target ∧ r.tree = value := by
  cases e with
  | assign => cases h; exact ⟨_, _, _, rfl, rfl, rfl⟩
  | _ => cases h

theorem eq_identifier_of_tree (h : e.tree = .identifier name) : ∃ span, e = .identifier name span := by
  cases e with
  | identifier => cases h; exact ⟨_, rfl⟩
  | _ => cases h

end Expr

namespace Store

theorem follow_eq_nil_of_reach (h : s.reach v keys = none) : s.follow v keys = .nil := by
  induction keys generalizing v with
  | nil => cases h
  | cons key keys ih =>
    rw [reach_cons] at h
    have hstep : s.follow v (key :: keys) = s.follow ((s.member? v key).getD .nil) keys := rfl
    rw [hstep]
    cases hm : s.member? v key with
    | none => exact follow_nil_value keys s
    | some w =>
      rw [hm] at h
      exact ih h

variable (hname : Token.IsWord name) (hkeys : ∀ k ∈ keys, Token.IsWord k)

include hname hkeys

theorem getPath_of_lookupName (hs : s.lookupName name = some v) :
    s.getPath (dottedPath name keys) = .ok (s.follow v keys) := by
  rw [getPath, pathSegments_path hname hkeys]
  dsimp only
  rw [hs]

theorem getPath_of_lookupName_eq_none (hs : s.lookupName name = none) :
    s.getPath (dottedPath name keys) = .error (.ofFault (.undefinedSymbol name)) := by
  rw [getPath, pathSegments_path hname hkeys]
  dsimp only
  rw [hs]

theorem lookupPath_path (s : Store) : s.lookupPath (dottedPath name keys) =
    (s.lookupName name).bind fun v => s.reach v keys := by
  rw [lookupPath, pathSegments_path hname hkeys]
  rfl

theorem setPath_path (v : Value) (s : Store) :
    s.setPath (dottedPath name keys) v = s.setKeys name keys v := by
  rw [setPath, pathSegments_path hname hkeys]

theorem getPath_of_lookupPath (h : s.lookupPath (dottedPath name keys) = some v) :
    s.getPath (dottedPath name keys) = .ok v := by
  rw [lookupPath_path hname hkeys] at h
  obtain ⟨w, hw, hreach⟩ := Option.bind_eq_some_iff.mp h
  rw [getPath_of_lookupName hname hkeys hw, follow_of_reach hreach]

theorem getPath_of_lookupPath_eq_none (h : s.lookupPath (dottedPath name keys) = none) :
    (∃ error, s.getPath (dottedPath name keys) = .error error) ∨
      s.getPath (dottedPath name keys) = .ok .nil := by
  rw [lookupPath_path hname hkeys] at h
  cases hs : s.lookupName name with
  | none => exact .inl ⟨_, getPath_of_lookupName_eq_none hname hkeys hs⟩
  | some w =>
    rw [hs] at h
    rw [getPath_of_lookupName hname hkeys hs, follow_eq_nil_of_reach h]
    exact .inr rfl

end Store

/-- The name stands for the value, and nothing changes in the value when something else comes to hold it. -/
structure Store.Binds (s : Store) (y : String) (v : Value) : Prop where
  lookup : s.lookupName y = some v
  held : v.IsHeld

theorem Store.binds_define (y : String) (v : Value) (s : Store) :
    ((s.hold v).2.define y (s.hold v).1).Binds y (s.hold v).1 :=
  ⟨lookupName_define y _ _, Value.isHeld_hold v s.nextIdentity⟩

namespace Script

/-- The script gives what the store has at the path, and fails where the name of the path is undefined. -/
structure ReadsPath (script : Script) (name path : String) : Prop where
  reads : ∀ s v, s.getPath path = .ok v ↔ (runOn script.resolve s).1 = .ok (.value v)
  fails : ∀ s, (∃ error, s.getPath path = .error error) ↔
    ∃ error, (runOn script.resolve s).1 = .error error ∧ error.root = .undefinedSymbol name
  unchanged : ∀ s, (runOn script.resolve s).2 = s

/-- The script writes to the path what the other name stands for, as the store does by itself. -/
structure WritesPath (script : Script) (path y : String) : Prop where
  writes : ∀ s v, s.Binds y v →
    ((∃ r, (runOn script.resolve s).1 = .ok r) ↔ ∃ t, s.setPath path v = .ok t)
  leaves : ∀ s t v, s.Binds y v → s.setPath path v = .ok t → (runOn script.resolve s).2 = t
  unchanged : ∀ s v error, s.Binds y v → s.setPath path v = .error error →
    (runOn script.resolve s).2 = s

theorem compile_of_ofExpr {source : String} (hparse : Expr.parse source = .ok e)
    (hc : Code.ofExpr e = .ok c) : compile source = .ok ⟨Text.trim source, c⟩ := by
  rw [compile, hparse]
  change (Code.ofExpr e >>= _) = _
  rw [hc]
  rfl

theorem runOn_resolve (script : Script) (s : Store) : runOn script.resolve s =
    ((runOn (script.code.eval Function.call) s).1.mapError (·.inExpression script.source),
      (runOn (script.code.eval Function.call) s).2) := by
  rw [resolve, evalWith, runOn_mapError]

section

variable (hname : Token.IsWord name) (hkeys : ∀ k ∈ keys, Token.IsWord k)

include hname hkeys

theorem readsPath_of_placeAt (hplace : e.PlaceAt name keys) (hcode : Code.ofExpr e = .ok script.code) :
    script.ReadsPath name (dottedPath name keys) := by
  obtain ⟨c, hc, haddress⟩ := hplace.compiles
  cases hcode.symm.trans hc
  have hnone : ∀ {s : Store}, s.lookupName name = none → runOn script.resolve s =
      (.error (.inExpression script.source (.ofFault (.undefinedSymbol name))), s) := by
    intro s hs
    rw [runOn_resolve, hplace.eval_of_lookupName_eq_none hcode hs]
    rfl
  have hsome : ∀ {s : Store} {w}, s.lookupName name = some w →
      runOn script.resolve s = (.ok (.value (s.follow w keys)), s) :=
    fun hs => runOn_resolve_of_eval (haddress.read Function.call hs)
  constructor
  case reads =>
    intro s v
    cases hs : s.lookupName name with
    | none => simp [Store.getPath_of_lookupName_eq_none hname hkeys hs, hnone hs]
    | some w => simp [Store.getPath_of_lookupName hname hkeys hs, hsome hs]
  case fails =>
    intro s
    cases hs : s.lookupName name with
    | none =>
      rw [Store.getPath_of_lookupName_eq_none hname hkeys hs, hnone hs]
      exact ⟨fun _ => ⟨_, rfl, rfl⟩, fun _ => ⟨_, rfl⟩⟩
    | some w => simp [Store.getPath_of_lookupName hname hkeys hs, hsome hs]
  case unchanged =>
    intro s
    cases hs : s.lookupName name with
    | none => rw [hnone hs]
    | some w => rw [hsome hs]

theorem writesPath_of_addressOf (haddress : c.AddressOf name keys)
    (hcode : script.code = c.place.assign .set (.name y)) : script.WritesPath (dottedPath name keys) y := by
  have hok : ∀ {s t : Store} {v}, s.Binds y v → s.setPath (dottedPath name keys) v = .ok t →
      runOn script.resolve s = (.ok (.value v), t) := by
    intro s t v hv hset
    rw [Store.setPath_path hname hkeys] at hset
    rw [runOn_resolve, hcode, haddress.eval_assign hv.lookup hv.held, hset]
    rfl
  have herror : ∀ {s : Store} {v error}, s.Binds y v → s.setPath (dottedPath name keys) v = .error error →
      runOn script.resolve s = (.error (error.inExpression script.source), s) := by
    intro s v error hv hset
    rw [Store.setPath_path hname hkeys] at hset
    rw [runOn_resolve, hcode, haddress.eval_assign hv.lookup hv.held, hset]
    rfl
  constructor
  case writes =>
    intro s v hv
    cases hset : s.setPath (dottedPath name keys) v with
    | ok t => simp [hok hv hset]
    | error error => simp [herror hv hset]
  case leaves => exact fun s t v hv hset => congrArg Prod.snd (hok hv hset)
  case unchanged => exact fun s v error hv hset => congrArg Prod.snd (herror hv hset)

end

/-- A dotted path and the expression with that text agree. The expression gives what the path leads to, nil
from where it leads nowhere, which a search for the path does not find. An assignment to it, of whatever
value a name has been bound to, succeeds and fails like a write to the path, and leaves the same store. -/
theorem dotted_paths_agree (hname : Token.Spells (.identifier name) name.toList)
    (hkeys : ∀ k ∈ keys, Token.Spells (.identifier k) k.toList) :
    (∃ script, compile (dottedPath name keys) = .ok script ∧ script.ReadsPath name (dottedPath name keys)) ∧
      (∀ (s : Store) v, s.lookupPath (dottedPath name keys) = some v →
        s.getPath (dottedPath name keys) = .ok v) ∧
      (∀ s : Store, s.lookupPath (dottedPath name keys) = none →
        (∃ error, s.getPath (dottedPath name keys) = .error error) ∨
          s.getPath (dottedPath name keys) = .ok .nil) ∧
      ∀ y, Token.Spells (.identifier y) y.toList →
        (∃ script, compile (dottedPath name keys ++ " = " ++ y) = .ok script ∧
          script.WritesPath (dottedPath name keys) y) ∧
        ∀ (s : Store) (v : Value), ((s.hold v).2.define y (s.hold v).1).Binds y (s.hold v).1 := by
  have hword := hname.isWord
  have hwords : ∀ k ∈ keys, Token.IsWord k := fun k hk => (hkeys k hk).isWord
  refine ⟨?_, ?_, ?_, fun y hy => ⟨?_, fun s v => Store.binds_define y v s⟩⟩
  · obtain ⟨e, hparse, htree⟩ := Expr.exists_parse_path hname hkeys
    have hplace := Expr.placeAt_of_tree htree
    obtain ⟨c, hc, -⟩ := hplace.compiles
    exact ⟨_, compile_of_ofExpr hparse hc, readsPath_of_placeAt hword hwords hplace hc⟩
  · exact fun s v => Store.getPath_of_lookupPath hword hwords
  · exact fun s => Store.getPath_of_lookupPath_eq_none hword hwords
  · obtain ⟨e, hparse, htree⟩ := Expr.exists_parse_path_assign hname hkeys hy
    obtain ⟨target, value, span, rfl, htarget, hvalue⟩ := Expr.eq_assign_of_tree htree
    obtain ⟨span', rfl⟩ := Expr.eq_identifier_of_tree hvalue
    obtain ⟨c, hc, haddress⟩ := (Expr.placeAt_of_tree htarget).compiles
    have hassign : Code.ofExpr (.assign .set target (.identifier y span') span) =
        .ok (c.place.assign .set (.name y)) := by
      rw [Code.ofExpr, hc]
      rfl
    exact ⟨_, compile_of_ofExpr hparse hassign, writesPath_of_addressOf hword hwords haddress rfl⟩

/-- A hero without a purse gets one with the first coins that go into it. -/
theorem dotted_paths_agree_purse : ∃ read write t, compile "me.purse.$coins" = .ok read ∧
    compile "me.purse.$coins = _n" = .ok write ∧
    (runOn write.resolve (traveller.define "_n" (.int 3))).2 = t ∧
    (runOn read.resolve t).1 = .ok (.value (.int 3)) := by
  have hme : Token.Spells (.identifier "me") "me".toList :=
    Token.spells_identifier rfl (by decide) (by decide) (by decide)
  have hpurse : Token.Spells (.identifier "purse") "purse".toList :=
    Token.spells_identifier rfl (by decide) (by decide) (by decide)
  have hcoins : Token.Spells (.identifier "$coins") "$coins".toList :=
    Token.spells_identifier rfl (by decide) (by decide) (by decide)
  have hn : Token.Spells (.identifier "_n") "_n".toList :=
    Token.spells_identifier rfl (by decide) (by decide) (by decide)
  obtain ⟨⟨read, hread, hreads⟩, -, -, hwrites⟩ := @dotted_paths_agree "me" ["purse", "$coins"] hme
    (List.forall_mem_cons.mpr ⟨hpurse, List.forall_mem_singleton.mpr hcoins⟩)
  obtain ⟨⟨write, hwrite, hwrites⟩, hbinds⟩ := hwrites "_n" hn
  have hbound : (traveller.define "_n" (.int 3)).Binds "_n" (.int 3) := hbinds traveller (.int 3)
  obtain ⟨t, hset, hget⟩ : ∃ t,
      (traveller.define "_n" (.int 3)).setPath "me.purse.$coins" (.int 3) = .ok t ∧
      t.getPath "me.purse.$coins" = .ok (.int 3) := ⟨_, rfl, rfl⟩
  exact ⟨read, write, t, hread, hwrite, hwrites.leaves _ t _ hbound hset, (hreads.reads t _).mp hget⟩

end Script

end TextAdventure
