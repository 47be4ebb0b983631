import Mathlib.Data.List.Forall2
import TextAdventure.Code.Eval
import TextAdventure.Proofs.Store.Rereading

/-! # Counting at a place

A place is a name followed by keys. Adding one to a place where nothing is makes it one, and every further
addition finds what the one before has written, whatever containers the place lies in.
-/
namespace TextAdventure

open Eval

/-- Code that gives one key, whatever the store, and changes nothing. -/
def Code.ConstantKey (c : Code) (key : String) : Prop :=
  ∀ call s, ∃ r, runOn (c.eval call) s = (.ok r, s) ∧ r.get.key = key

theorem Code.constantKey_constant (v : Literal) : ConstantKey (.constant v) (Value.ofLiteral v).key :=
  fun _ _ => ⟨.value (.ofLiteral v), rfl, rfl⟩

/-- A name followed by keys, each of them named or constant. -/
inductive Expr.PlaceAt : Expr → String → List String → Prop
  | identifier (n : String) (span : Span) : PlaceAt (.identifier n span) n []
  | member {p : Expr} {root : String} {keys : List String} (h : PlaceAt p root keys) (key : String)
      (span : Span) : PlaceAt (.member p key span) root (keys ++ [key])
  | element {p e : Expr} {c : Code} {root key : String} {keys : List String} (h : PlaceAt p root keys)
      (hc : Code.ofExpr e = .ok c) (hkey : c.ConstantKey key) (span : Span) :
      PlaceAt (.element p e span) root (keys ++ [key])

variable {c k : Code} {key root : String} {keys : List String} {s t u : Store} {v : Value}

/-- What the code of a place does when it is read, and where it is written to. -/
structure Code.AddressOf (c : Code) (root : String) (keys : List String) : Prop where
  place : ∃ codes, c.place = .name root codes ∧ List.Forall₂ ConstantKey codes keys
  read : ∀ call {s : Store} {v}, s.lookupName root = some v →
    runOn (c.eval call) s = (.ok (.value (s.follow v keys)), s)

namespace Code

theorem evalAll_constant {codes : List Code} (h : List.Forall₂ ConstantKey codes keys) (call : Caller)
    (s : Store) : ∃ vs, runOn (evalAll call codes) s = (.ok vs, s) ∧ vs.map Value.key = keys := by
  induction h with
  | nil => exact ⟨[], rfl, rfl⟩
  | cons hkey _ ih =>
    obtain ⟨r, hr, rfl⟩ := hkey call s
    obtain ⟨vs, hvs, rfl⟩ := ih
    refine ⟨r.get :: vs, ?_, rfl⟩
    simp [evalAll, runOn_bind, runOn_map, hr, hvs, Except.map]

theorem addressOf_name (n : String) : AddressOf (.name n) n [] := by
  refine ⟨⟨[], rfl, .nil⟩, fun call s v hv => ?_⟩
  simp [eval, runOn_bind, hv, Store.follow]

theorem member?_of_isNil (h : v.isNil = true) (key : String) (s : Store) : s.member? v key = none := by
  cases v with
  | nil => rfl
  | _ => cases h

theorem AddressOf.member (h : AddressOf c root keys) (hkey : k.ConstantKey key) :
    AddressOf (.member c k) root (keys ++ [key]) := by
  obtain ⟨codes, hplace, hcodes⟩ := h.place
  refine ⟨⟨codes ++ [k], by rw [Code.place, hplace]; rfl, List.rel_append hcodes (.cons hkey .nil)⟩, ?_⟩
  intro call s v hv
  obtain ⟨r, hr, rfl⟩ := hkey call s
  have hfollow : s.follow v (keys ++ [r.get.key]) =
      (s.member? (s.follow v keys) r.get.key).getD .nil := by simp [Store.follow]
  rw [hfollow, eval, runOn_bind, h.read call hv]
  change runOn (if (s.follow v keys).isNil = true then _ else _) s = _
  split
  · rename_i hnil
    rw [member?_of_isNil hnil]
    rfl
  · rw [runOn_bind, hr]
    rfl

end Code

theorem Expr.PlaceAt.compiles {p : Expr} (h : PlaceAt p root keys) :
    ∃ c, Code.ofExpr p = .ok c ∧ c.AddressOf root keys := by
  induction h with
  | identifier n span => exact ⟨_, rfl, Code.addressOf_name n⟩
  | member _ key span ih =>
    obtain ⟨c, hc, haddress⟩ := ih
    exact ⟨.member c (.constant (.string key)), by rw [Code.ofExpr, hc]; rfl,
      haddress.member (Code.constantKey_constant (.string key))⟩
  | @element _ _ k _ _ _ _ he hkey span ih =>
    obtain ⟨c, hc, haddress⟩ := ih
    exact ⟨.member c k, by rw [Code.ofExpr, hc, he]; rfl, haddress.member hkey⟩

/-- `n` runs in a row that all succeed lead from the first store to the second. -/
inductive Repeats {α : Type} (m : Eval α) : Nat → Store → Store → Prop
  | none (s : Store) : Repeats m 0 s s
  | more {n : Nat} {s t u : Store} {a : α} (h : Repeats m n s t) (hrun : runOn m t = (.ok a, u)) :
      Repeats m (n + 1) s u

theorem eq_ok_of_runOn_change {α : Type} {f : Store → Except Error (α × Store)} {a : α}
    (h : runOn (change f) s = (.ok a, t)) : f s = .ok (a, t) := by
  rw [runOn_change] at h
  cases hf : f s with
  | error e =>
    rw [hf] at h
    cases h
  | ok r =>
    rw [hf] at h
    cases h
    rfl

theorem Code.AddressOf.setKeys_of_count {n : Int64} {r : Resolved} (h : c.AddressOf root keys)
    (hsum : Code.combine .add (s.follow (s.start root) keys) (.int 1) = .ok (.int n)) (call : Caller)
    (hrun : runOn ((c.place.assign .add (.constant (.int 1))).eval call) s = (.ok r, t)) :
    s.setKeys root keys (.int n) = .ok t := by
  obtain ⟨codes, hplace, hcodes⟩ := h.place
  obtain ⟨vs, hvs, rfl⟩ := Code.evalAll_constant hcodes call s
  have hstore : runOn (Code.storeName .add root (vs.map Value.key) (.int 1)) s = (.ok r, t) := by
    rw [hplace, Code.Place.assign, Code.eval, runOn_bind, Code.eval] at hrun
    change runOn (Code.evalAll call codes >>= _) s = _ at hrun
    rwa [runOn_bind, hvs] at hrun
  obtain ⟨stored, hstored, hset⟩ := Error.bind_eq_ok_iff.mp (eq_ok_of_runOn_change hstore)
  cases hsum.symm.trans hstored
  obtain ⟨u, hu, hpair⟩ := Error.bind_eq_ok_iff.mp hset
  cases hpair
  exact hu

/-- Scripts that add one to a place and that read it. -/
structure Counts (p : Expr) (count read : Script) : Prop where
  count : ∃ span span', Code.ofExpr (.assign .add p (.literal (.int 1) span) span') = .ok count.code
  read : Code.ofExpr p = .ok read.code

variable {p : Expr} {count read : Script}

theorem runOn_resolve_of_eval {script : Script} {r : Resolved}
    (h : runOn (script.code.eval Function.call) s = (.ok r, t)) :
    runOn script.resolve s = (.ok r, t) := by
  rw [Script.resolve, Script.evalWith, runOn_mapError, h]
  rfl

theorem eval_of_runOn_resolve {script : Script} {r : Resolved}
    (h : runOn script.resolve s = (.ok r, t)) :
    runOn (script.code.eval Function.call) s = (.ok r, t) := by
  rw [Script.resolve, Script.evalWith, runOn_mapError] at h
  cases hr : runOn (script.code.eval Function.call) s with
  | mk o u =>
    rw [hr] at h
    cases o with
    | error e => cases h
    | ok r' => exact h

theorem Counts.code_eq (h : Counts p count read) :
    count.code = read.code.place.assign .add (.constant (.int 1)) := by
  obtain ⟨span, span', hcount⟩ := h.count
  rw [Code.ofExpr, h.read] at hcount
  exact (Except.ok.inj hcount).symm

/-- One more run settles the place at the sum. -/
theorem Counts.step {n : Int64} {r : Resolved} (h : Counts p count read) (hp : p.PlaceAt root keys)
    (hsum : Code.combine .add (s.follow (s.start root) keys) (.int 1) = .ok (.int n))
    (hb : s.pathBounded (root, keys) = true) (hc : ¬s.Clashes (root, keys))
    (hrun : runOn count.resolve s = (.ok r, t)) : Store.Settled root keys (.int n) t := by
  obtain ⟨c, hcode, haddress⟩ := hp.compiles
  cases hcode.symm.trans h.read
  have heval := eval_of_runOn_resolve hrun
  rw [h.code_eq] at heval
  exact Store.settled_of_setKeys hb hc (haddress.setKeys_of_count hsum Function.call heval)

theorem Counts.settled {n : Nat} (h : Counts p count read) (hp : p.PlaceAt root keys)
    (hnil : s.follow (s.start root) keys = .nil) (hb : s.pathBounded (root, keys) = true)
    (hc : ¬s.Clashes (root, keys)) (hruns : Repeats count.resolve n s t) (hn : 0 < n) :
    Store.Settled root keys (.int (Int64.ofNat n)) t := by
  induction hruns with
  | none s => cases hn
  | @more n s t u r hruns hrun ih =>
    rcases Nat.eq_zero_or_pos n with rfl | hpos
    · cases hruns
      exact h.step hp (by rw [hnil]; rfl) hb hc hrun
    · have hsettled := ih hnil hb hc hpos
      have hpresent := Store.follow_of_reach hsettled.reach
      rw [Int64.ofNat_add]
      exact h.step hp (by rw [hpresent]; rfl) hsettled.pathBounded hsettled.apart hrun

theorem runOn_read (h : Counts p count read) (hp : p.PlaceAt root keys) (hs : s.lookupName root = some v) :
    runOn read.resolve s = (.ok (.value (s.follow v keys)), s) := by
  obtain ⟨c, hcode, haddress⟩ := hp.compiles
  cases hcode.symm.trans h.read
  exact runOn_resolve_of_eval (haddress.read Function.call hs)

theorem follow_nil_value (keys : List String) (s : Store) : s.follow .nil keys = .nil := by
  induction keys with
  | nil => rfl
  | cons key keys ih => exact ih

/-- Counting works at every place where nothing is: after `n` runs that all succeed it holds the number
`n`. Every list on the way has to be indexed at most at its length, since a write past the end appends, and
the property that receives the number must be none that is read on the way there, nor one through which
the first name is looked up. -/
theorem counting_works {n : Nat} (h : Counts p count read) (hp : p.PlaceAt root keys)
    (hmissing : ∀ r, (runOn read.resolve s).1 = .ok r → r.get = .nil)
    (hb : s.pathBounded (root, keys) = true) (hc : ¬s.Clashes (root, keys))
    (hn : 0 < n) (hlt : n < Nat.pow 2 63) (hruns : Repeats count.resolve n s t) :
    ∃ k : Int64, k.toInt = n ∧ runOn read.resolve t = (.ok (.value (.int k)), t) := by
  have hnil : s.follow (s.start root) keys = .nil := by
    cases hs : s.lookupName root with
    | none => rw [Store.start, hs, Option.getD_none, follow_nil_value]
    | some v =>
      rw [Store.start, hs]
      exact hmissing _ (congrArg Prod.fst (runOn_read h hp hs))
  have hsettled := h.settled hp hnil hb hc hruns hn
  obtain ⟨v, hv⟩ := Option.isSome_iff_exists.mp hsettled.isDefined
  have hpresent := Store.follow_of_reach hsettled.reach
  rw [Store.start_eq_of_lookupName hv] at hpresent
  refine ⟨Int64.ofNat n, ?_, ?_⟩
  · exact Int64.toInt_ofNat_of_lt hlt
  · rw [runOn_read h hp hv, hpresent]

/-- The script that adds one to the place that a script reads. -/
def Script.counting (read : Script) : Script :=
  ⟨read.source ++ " += 1", read.code.place.assign .add (.constant (.int 1))⟩

def coins : Expr :=
  .member (.element (.member (.identifier "me" .default) "bag" .default) (.literal (.int 0) .default)
    .default) "coins" .default

def readCoins : Script where
  source := "me.bag[0].coins"
  code := .member (.member (.member (.name "me") (.constant (.string "bag"))) (.constant (.int 0)))
    (.constant (.string "coins"))

/-- A hero with an empty bag. -/
def traveller : Store :=
  { Store.new 0 Store.defaultMaxCalls with
    globals := [("me", .entity "hero")]
    entities := [("hero", [("bag", .list [])])] }

theorem coins_placeAt : coins.PlaceAt "me" ["bag", "0", "coins"] :=
  .member (.element (.member (.identifier "me" _) "bag" _) rfl
    (Code.constantKey_constant (.int 0)) _) "coins" _

theorem counting_works_coins : ∃ t, Repeats readCoins.counting.resolve 2 traveller t ∧
    ∃ k : Int64, k.toInt = 2 ∧ runOn readCoins.resolve t = (.ok (.value (.int k)), t) := by
  have h : Counts coins readCoins.counting readCoins := ⟨⟨.default, .default, rfl⟩, rfl⟩
  have hruns : ∃ t, Repeats readCoins.counting.resolve 2 traveller t :=
    ⟨_, .more (.more (.none traveller) rfl) rfl⟩
  obtain ⟨t, hruns⟩ := hruns
  refine ⟨t, hruns, counting_works h coins_placeAt ?_ ?_ ?_ ?_ ?_ hruns⟩
  · intro r hr
    cases hr
    rfl
  · decide +kernel
  · decide +kernel
  · decide
  · decide

def fifth : Expr :=
  .element (.identifier "l" .default) (.literal (.int 5) .default) .default

def readFifth : Script :=
  ⟨"l[5]", .member (.name "l") (.constant (.int 5))⟩

/-- Past the end of a list, what is written stands at another position than the one it is read from. -/
theorem not_counting_works : ¬∀ (p : Expr) (count read : Script) (root : String) (keys : List String)
    (s t : Store) (n : Nat), Counts p count read → p.PlaceAt root keys →
      (∀ r, (runOn read.resolve s).1 = .ok r → r.get = .nil) → 0 < n → n < Nat.pow 2 63 →
      Repeats count.resolve n s t →
      ∃ k : Int64, k.toInt = n ∧ runOn read.resolve t = (.ok (.value (.int k)), t) := by
  intro h
  have hplace : fifth.PlaceAt "l" ["5"] :=
    .element (.identifier "l" _) rfl (Code.constantKey_constant (.int 5)) _
  have hruns : Repeats readFifth.counting.resolve 1
      { Store.new 0 Store.defaultMaxCalls with globals := [("l", .list [])] } _ :=
    .more (.none _) rfl
  obtain ⟨k, _, hread⟩ := h fifth _ readFifth "l" ["5"] _ _ 1 ⟨⟨.default, .default, rfl⟩, rfl⟩ hplace
    (by intro r hr; cases hr; rfl) (by decide) (by decide) hruns
  cases hread

/-- A property that a nearer scope looks the name up through hides what the name stood for. -/
theorem not_counting_works_shadowed : ∃ (s t : Store) (read : Script),
    Repeats read.counting.resolve 1 s t ∧ s.pathBounded ("me", ["me"]) = true ∧
      ¬s.Revisits ("me", ["me"]) ∧ runOn read.resolve t = (.ok (.value .nil), t) := by
  refine ⟨{ Store.new 0 Store.defaultMaxCalls with
    globals := [("me", .entity "hero")], scopes := [.entity "hero"] }, _,
    ⟨"me.me", .member (.name "me") (.constant (.string "me"))⟩, .more (.none _) rfl, ?_, ?_, rfl⟩
  · decide +kernel
  · decide +kernel

end TextAdventure
